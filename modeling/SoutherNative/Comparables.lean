import SoutherNative.Comparing

set_option autoImplicit false

/-!
# Which comparisons lower

`comparable` walks a type and the declarations it names, a declaration met again taken to compare,
and a comparison is lowered as far as the comparators and the element equalities it owes. Both ask
the same of every type but one thing: a comparator over cases names the token of each case but the
last, and the walk asks for no token.
-/
namespace SoutherNative.Comparables
open Transport Hashing Comparing Widening

def namedTypes (cases : List Case) : List Ty :=
  cases.filterMap fun case => match case with
    | .declared key => some (.ref (.declared key))
    | .primitive _ | .language _ => none

/-- The types a comparison of two values of `ty` goes on to, where `fork` is the cases a set of
    alternatives is taken as. -/
def parts (fork : List Case → List Case) (declared : Declared) (ty : Ty) : List Ty :=
  if ty.holdsNoValue then []
  else
    match ty with
    | .option it | .list it | .set it => [it]
    | .map key value => [key, value]
    | .tuple members => members
    | .union members => namedTypes (fork members.cases)
    | .ref (.declared key) =>
      match declared.laid key with
      | .product fields => fields.map CodecShape.ty
      | .newtype field => [field.ty]
      | .unit => []
      | .sum members => namedTypes (fork members.cases)
    | _ => []

mutual

def names : Ty → List String
  | .ref (.declared key) => [key]
  | .union members => members.cases.filterMap fun case => match case with
    | .declared key => some key
    | .primitive _ | .language _ => none
  | .option it | .list it | .set it => names it
  | .map key value => names key ++ names value
  | .tuple members => namesEach members
  | .fn takes answers => namesEach takes ++ names answers
  | .prim _ | .ref (.primitive _) | .ref (.language _) | .var _ | .nothing | .never => []

def namesEach : List Ty → List String
  | [] => []
  | ty :: tys => names ty ++ namesEach tys

end

inductive DeclaredBy
  | aModule | onThePath | theLanguage
  deriving DecidableEq

/-- The declarations that crossed, with who declares each and where. `Coherent` held every
    declaration one of them names to be one that crossed. -/
structure Crossed where
  declared : Declared
  declaredBy : String → DeclaredBy
  place : String → String × String
  keys : Finset String
  closed : ∀ key ∈ keys, ∀ it ∈ parts id declared (.ref (.declared key)),
    ∀ name ∈ names it, name ∈ keys

def LANGUAGE_UNITS : List (String × String) :=
  [("souther.decimal", "HALF_UP"), ("souther.decimal", "HALF_EVEN"),
    ("souther.decimal", "HALF_DOWN"), ("souther.decimal", "UP"), ("souther.decimal", "DOWN"),
    ("souther.decimal", "CEILING"), ("souther.decimal", "FLOOR")]

inductive MachineType
  | i64 | i8
  deriving DecidableEq

def POINTER : MachineType := .i64

def machineType : Ty → Lowered MachineType
  | .ref (.declared _) | .option _ | .tuple _ | .ref (.language _) | .list _ | .union _ | .set _
  | .map _ _ | .fn _ _ => .ok POINTER
  | .ref (.primitive p) => .error (namedAsAType (.ref (.primitive p)))
  | .var n => .error (openType n)
  | .nothing => .error s!"a value of type {Ty.nothing.spelt}"
  | .never => .error s!"a value of type {Ty.never.spelt}"
  | .prim .int => .ok .i64
  | .prim .bool => .ok .i8
  | .prim _ => .ok POINTER

/-- What no two values of `ty` are asked to agree on is refused as. -/
def comparisonOf (ty : Ty) : String := s!"a comparison of two values of {ty.spelt}"

inductive Owed
  | comparator (ty : Ty)
  | equality (ty : Ty)

/-- Whether two values of `ty` are equal, as far as what is asked is lowered: what it owes. -/
def equal (ty : Ty) : Lowered (List Owed) :=
  match ty with
  | .prim _ | .ref (.language _) => .ok []
  | .fn _ _ | .nothing | .never => .error (comparisonOf ty)
  | .var n => .error (openType n)
  | .ref (.primitive _) => .error (namedAsAType ty)
  | .set member => if ty.holdsNoValue then .ok [] else .ok [.equality member]
  | .map key value => if ty.holdsNoValue then .ok [] else .ok [.equality key, .equality value]
  | .ref (.declared _) | .union _ | .option _ | .tuple _ | .list _ =>
    if ty.holdsNoValue then .ok []
    else (machineType ty).bind fun _ => .ok [.comparator ty]

def andThen (one rest : Lowered (List Owed)) : Lowered (List Owed) :=
  one.bind fun owed => rest.map (owed ++ ·)

def slot (ty : Ty) : Lowered (List Owed) :=
  (machineType ty).bind fun _ => equal ty

def slots : List Ty → Lowered (List Owed)
  | [] => .ok []
  | ty :: types => andThen (slot ty) (slots types)

def asTheCase : Case → Lowered (List Owed)
  | .declared key => equal (.ref (.declared key))
  | .primitive p => slot (.prim p)
  | .language _ => .ok []

namespace Crossed

variable (p : Crossed)

def tag (key : String) : Lowered Unit :=
  match p.declaredBy key with
  | .aModule | .onThePath => .ok ()
  | .theLanguage =>
    if p.place key ∈ LANGUAGE_UNITS then .ok ()
    else .error (s!"a value of {key}, which the language declares and the runtime " ++
      "defines no token for")

def tokenOf : Case → Lowered Unit
  | .declared key => p.tag key
  | .primitive _ | .language _ => .ok ()

def fork : List Case → Lowered (List Owed)
  | [] => .ok []
  | [leaf] => asTheCase leaf
  | leaf :: next :: leaves =>
    (p.tokenOf leaf).bind fun _ => andThen (asTheCase leaf) (fork (next :: leaves))

def cases (members : List Case) : Lowered (List Owed) :=
  p.fork (p.declared.leavesOf members)

/-- The body of the function comparing two values of `ty`. -/
def body (ty : Ty) : Lowered (List Owed) :=
  match ty with
  | .ref (.declared key) =>
    match p.declared.laid key with
    | .product fields => slots (fields.map CodecShape.ty)
    | .newtype field => slots [field.ty]
    | .unit => .ok []
    | .sum members => p.cases members.cases
  | .union members => p.cases members.cases
  | .option held => slots [held]
  | .tuple members => slots members
  | .list element => slot element
  | .prim _ | .ref (.primitive _) | .ref (.language _) | .fn _ _ | .set _ | .map _ _ | .nothing
  | .never => equal ty
  | .var n => .error (openType n)

/-- The body of what is owed: a comparator's own, and for an element its equality, which is written
    and never called where no value of it is made. -/
def written : Owed → Lowered (List Owed)
  | .comparator ty => p.body ty
  | .equality ty => if ty.hasNoValue then .ok [] else slot ty

/-- What a comparison of two values of `ty` owes, and what each of those owes in turn. -/
inductive Reached (ty : Ty) : Owed → Prop
  | asked {all : List Owed} {owed : Owed} (h : equal ty = .ok all) (howed : owed ∈ all) :
    Reached ty owed
  | inTurn {owed : Owed} {all : List Owed} {more : Owed} (hreached : Reached ty owed)
    (h : p.written owed = .ok all) (hmore : more ∈ all) : Reached ty more

/-- A comparison of two values of `ty` is lowered, with every function it owes written. -/
structure Lowers (ty : Ty) : Prop where
  asked : ∃ all, equal ty = .ok all
  owed : ∀ owed, p.Reached ty owed → ∃ all, p.written owed = .ok all

end Crossed

abbrev Walking := Finset String

def allOf {α : Type} (walk : α → Walking → Bool × Walking) :
    List α → Walking → Bool × Walking
  | [], walking => (true, walking)
  | it :: rest, walking =>
    if (walk it walking).1 then allOf walk rest (walk it walking).2
    else (false, (walk it walking).2)

section Walk

variable (enter : String → Walking → Bool × Walking)

def caseComparable : Case → Walking → Bool × Walking
  | .declared key, walking => enter key walking
  | .primitive _, walking | .language _, walking => (true, walking)

mutual

/-- Whether two values of the type compare, where `enter` answers for a declaration. -/
def comparableWithin : Ty → Walking → Bool × Walking
  | .prim _, walking | .ref (.language _), walking => (true, walking)
  | .fn _ _, walking | .var _, walking | .nothing, walking | .never, walking
  | .ref (.primitive _), walking => (false, walking)
  | .set member, walking =>
    if (Ty.set member).holdsNoValue then (true, walking) else comparableWithin member walking
  | .map key value, walking =>
    if (Ty.map key value).holdsNoValue then (true, walking)
    else if (comparableWithin key walking).1 then
      comparableWithin value (comparableWithin key walking).2
    else (false, (comparableWithin key walking).2)
  | .option held, walking =>
    if (Ty.option held).holdsNoValue then (true, walking) else comparableWithin held walking
  | .list element, walking =>
    if (Ty.list element).holdsNoValue then (true, walking) else comparableWithin element walking
  | .tuple members, walking => comparableEach members walking
  | .union members, walking => allOf (caseComparable enter) members.cases walking
  | .ref (.declared key), walking => enter key walking

def comparableEach : List Ty → Walking → Bool × Walking
  | [], walking => (true, walking)
  | ty :: tys, walking =>
    if (comparableWithin ty walking).1 then comparableEach tys (comparableWithin ty walking).2
    else (false, (comparableWithin ty walking).2)

end

end Walk

namespace Crossed

variable (p : Crossed)

/-- A declaration walked where it is met first. Each met for the first time is one more of those
    that crossed, so as many rounds as there are of those are enough. -/
def enter : ℕ → String → Walking → Bool × Walking
  | 0, key, walking => (decide (key ∈ walking), walking)
  | rounds + 1, key, walking =>
    if key ∈ walking then (true, walking)
    else
      match p.declared.laid key with
      | .product fields =>
        allOf (fun it : CodecShape => comparableWithin (enter rounds) it.ty) fields
          (insert key walking)
      | .newtype field => comparableWithin (enter rounds) field.ty (insert key walking)
      | .unit => (true, insert key walking)
      | .sum members => allOf (caseComparable (enter rounds)) members.cases (insert key walking)

def comparable (ty : Ty) : Bool :=
  (comparableWithin (p.enter p.keys.card) ty ∅).1

end Crossed

def Crossed.hasToken (p : Crossed) : Case → Bool
  | .declared key => p.declaredBy key ≠ .theLanguage || p.place key ∈ LANGUAGE_UNITS
  | .primitive _ | .language _ => true

/-- The cases a comparator of `ty` forks on. -/
def Crossed.alternatives (p : Crossed) (ty : Ty) : List Case :=
  match ty with
  | .union members => p.declared.leavesOf members.cases
  | .ref (.declared key) =>
    match p.declared.laid key with
    | .sum members => p.declared.leavesOf members.cases
    | .product _ | .newtype _ | .unit => []
  | _ => []

/-- Each case a comparator of `ty` forks on but the last has a token. -/
def Crossed.Tokened (p : Crossed) (ty : Ty) : Prop :=
  ∀ leaf ∈ (p.alternatives ty).dropLast, p.hasToken leaf = true

/-- Whether two values of `ty` are refused at `ty` itself. -/
def refuses : Ty → Bool
  | .fn _ _ | .var _ | .nothing | .never | .ref (.primitive _) => true
  | .prim _ | .ref (.declared _) | .ref (.language _) | .union _ | .option _ | .tuple _ | .list _
  | .set _ | .map _ _ => false

theorem mem_namedTypes {cases : List Case} {ty : Ty} :
    ty ∈ namedTypes cases ↔ ∃ key, Case.declared key ∈ cases ∧ ty = .ref (.declared key) := by
  rw [namedTypes, List.mem_filterMap]
  constructor
  · rintro ⟨case, hcase, h⟩
    cases case with
    | declared key => exact ⟨key, hcase, (Option.some.inj h).symm⟩
    | primitive | language => cases h
  · rintro ⟨key, hkey, rfl⟩
    exact ⟨.declared key, hkey, rfl⟩

section Parts

variable {fork : List Case → List Case} {declared : Declared} {ty it : Ty}

/-- What a type that is no declaration goes on to is a declaration, or part of the type. -/
theorem parts_smaller (hmade : ∀ key, ty ≠ .ref (.declared key)) (h : it ∈ parts fork declared ty) :
    (∃ key, it = .ref (.declared key)) ∨ sizeOf it < sizeOf ty := by
  cases ty with
  | option held | list held | set held =>
    rw [parts] at h
    split at h
    · cases h
    · rw [List.mem_singleton.mp h]
      right
      simp only [Ty.option.sizeOf_spec, Ty.list.sizeOf_spec, Ty.set.sizeOf_spec]
      omega
  | map key value =>
    rw [parts] at h
    split at h
    · cases h
    · right
      simp only [Ty.map.sizeOf_spec]
      rcases List.mem_cons.mp h with rfl | h
      · omega
      · rw [List.mem_singleton.mp h]
        omega
  | tuple members =>
    have hmember : it ∈ members := h
    have := List.sizeOf_lt_of_mem hmember
    right
    simp only [Ty.tuple.sizeOf_spec]
    omega
  | union members =>
    obtain ⟨key, -, rfl⟩ := mem_namedTypes.mp h
    exact .inl ⟨key, rfl⟩
  | ref named =>
    cases named with
    | declared key => exact absurd rfl (hmade key)
    | primitive | language => cases h
  | prim | fn | var | nothing | never => cases h

/-- What holds of every declaration, and of a type where it holds of what the type goes on to. -/
theorem parts_induction {motive : Ty → Prop} (fork : List Case → List Case) (declared : Declared)
    (named : ∀ key, motive (.ref (.declared key)))
    (made : ∀ ty, (∀ key, ty ≠ .ref (.declared key)) →
      (∀ it ∈ parts fork declared ty, motive it) → motive ty) (ty : Ty) : motive ty := by
  induction hn : sizeOf ty using Nat.strong_induction_on generalizing ty with
  | _ n ih =>
    subst hn
    by_cases hnamed : ∃ key, ty = .ref (.declared key)
    · obtain ⟨key, rfl⟩ := hnamed
      exact named key
    · rw [not_exists] at hnamed
      apply made ty hnamed
      intro it hit
      rcases parts_smaller hnamed hit with ⟨key, rfl⟩ | hsmaller
      · exact named key
      · exact ih _ hsmaller it rfl

theorem mem_namesEach {types : List Ty} {name : String} (hit : it ∈ types)
    (h : name ∈ names it) : name ∈ namesEach types := by
  induction types with
  | nil => cases hit
  | cons ty types ih =>
    rw [namesEach, List.mem_append]
    rcases List.mem_cons.mp hit with rfl | hit
    · exact .inl h
    · exact .inr (ih hit)

theorem names_parts (hmade : ∀ key, ty ≠ .ref (.declared key)) (hit : it ∈ parts id declared ty)
    {name : String} (h : name ∈ names it) : name ∈ names ty := by
  cases ty with
  | option held | list held | set held =>
    rw [parts] at hit
    split at hit
    · cases hit
    · rw [List.mem_singleton.mp hit] at h
      exact h
  | map key value =>
    rw [parts] at hit
    split at hit
    · cases hit
    · rw [names, List.mem_append]
      rcases List.mem_cons.mp hit with rfl | hit
      · exact .inl h
      · rw [List.mem_singleton.mp hit] at h
        exact .inr h
  | tuple members => exact mem_namesEach hit h
  | union members =>
    obtain ⟨key, hkey, rfl⟩ := mem_namedTypes.mp hit
    rw [names, List.mem_singleton] at h
    rw [names, List.mem_filterMap]
    exact ⟨.declared key, hkey, by rw [h]⟩
  | ref named =>
    cases named with
    | declared key => exact absurd rfl (hmade key)
    | primitive | language => cases hit
  | prim | fn | var | nothing | never => cases hit

end Parts

section Walk

variable {enter : String → Walking → Bool × Walking}

@[simp]
theorem allOf_nil {α : Type} (walk : α → Walking → Bool × Walking) (walking : Walking) :
    allOf walk [] walking = (true, walking) :=
  rfl

@[simp]
theorem allOf_one {α : Type} (walk : α → Walking → Bool × Walking) (it : α) (walking : Walking) :
    allOf walk [it] walking = walk it walking := by
  rcases h : walk it walking with ⟨answer, walked⟩
  cases answer <;> simp [allOf, h]

theorem allOf_map {α β : Type} (walk : β → Walking → Bool × Walking) (f : α → β) (them : List α)
    (walking : Walking) : allOf (fun it => walk (f it)) them walking =
      allOf walk (them.map f) walking := by
  induction them generalizing walking with
  | nil => rfl
  | cons it them ih => rw [allOf, List.map_cons, allOf, ih]

theorem allOf_cases (cases : List Case) (walking : Walking) :
    allOf (caseComparable enter) cases walking =
      allOf (comparableWithin enter) (namedTypes cases) walking := by
  induction cases generalizing walking with
  | nil => rfl
  | cons case cases ih =>
    cases case with
    | declared key =>
      have hnamed : namedTypes (.declared key :: cases) =
          .ref (.declared key) :: namedTypes cases := rfl
      rw [hnamed, allOf, allOf, ih]
      rfl
    | primitive | language =>
      rw [allOf, caseComparable, if_pos rfl, ih]
      rfl

theorem comparableEach_eq (types : List Ty) (walking : Walking) :
    comparableEach enter types walking = allOf (comparableWithin enter) types walking := by
  induction types generalizing walking with
  | nil => rfl
  | cons ty types ih => rw [comparableEach, allOf, ih]

/-- A type that is no declaration is refused, or answered for by what it goes on to. -/
theorem comparableWithin_eq (declared : Declared) {ty : Ty}
    (hmade : ∀ key, ty ≠ .ref (.declared key)) (walking : Walking) :
    comparableWithin enter ty walking =
      if refuses ty then (false, walking)
      else allOf (comparableWithin enter) (parts id declared ty) walking := by
  cases ty with
  | ref named =>
    cases named with
    | declared key => exact absurd rfl (hmade key)
    | primitive | language => rfl
  | option held | list held | set held =>
    rw [comparableWithin, parts, refuses]
    split <;> simp
  | map key value =>
    rw [comparableWithin, parts, refuses]
    split
    · rfl
    · rw [if_neg Bool.false_ne_true, allOf, allOf_one]
  | tuple members => exact comparableEach_eq members walking
  | union members => exact allOf_cases members.cases walking
  | prim | fn | var | nothing | never => rfl

end Walk

namespace Crossed

variable (p : Crossed)

/-- What a comparison of two values of `ty` goes on to, a set of alternatives member by member. -/
abbrev Asks (ty it : Ty) : Prop := it ∈ parts id p.declared ty

/-- What a comparison of two values of `ty` goes on to, a set of alternatives as the cases it
    descends to. -/
abbrev Holds (ty it : Ty) : Prop := it ∈ parts p.declared.leavesOf p.declared ty

theorem enter_succ (rounds : ℕ) (key : String) (walking : Walking) :
    p.enter (rounds + 1) key walking =
      if key ∈ walking then (true, walking)
      else allOf (comparableWithin (p.enter rounds))
        (parts id p.declared (.ref (.declared key))) (insert key walking) := by
  rw [enter, parts, if_neg (show ¬(Ty.ref (.declared key)).holdsNoValue = true from nofun)]
  by_cases hkey : key ∈ walking
  · rw [if_pos hkey, if_pos hkey]
  · rw [if_neg hkey, if_neg hkey]
    cases p.declared.laid key with
    | product fields => exact allOf_map _ _ fields _
    | newtype field => exact (allOf_one _ _ _).symm
    | unit => rfl
    | sum members => exact allOf_cases members.cases _

inductive Over (walking : Walking) : Ty → Prop
  | met {key : String} (h : key ∈ walking) : Over walking (.ref (.declared key))
  | made {ty : Ty} (hmade : ∀ key, ty ≠ .ref (.declared key)) (hrefuses : refuses ty = false)
    (h : ∀ it, p.Asks ty it → Over walking it) : Over walking ty

variable {p}

theorem Over.grow {walking walked : Walking} (hgrown : walking ⊆ walked) {ty : Ty}
    (h : p.Over walking ty) : p.Over walked ty := by
  induction h with
  | met h => exact .met (hgrown h)
  | made hmade hrefuses _ ih => exact .made hmade hrefuses ih

variable (p)

/-- What a walk that found nothing refused leaves: the types walked answered for, and what each
    declaration met on the way goes on to. -/
structure Closes (walking walked : Walking) (types : List Ty) : Prop where
  grown : walking ⊆ walked
  answered : ∀ ty ∈ types, p.Over walked ty
  laid : ∀ key ∈ walked, key ∉ walking → ∀ it, p.Asks (.ref (.declared key)) it →
    p.Over walked it

variable {p}

theorem Closes.cons {walking between walked : Walking} {ty : Ty} {types : List Ty}
    (hty : p.Closes walking between [ty]) (htypes : p.Closes between walked types) :
    p.Closes walking walked (ty :: types) where
  grown := hty.grown.trans htypes.grown
  answered := by
    intro it hit
    rcases List.mem_cons.mp hit with rfl | hit
    · exact (hty.answered it List.mem_cons_self).grow htypes.grown
    · exact htypes.answered it hit
  laid := by
    intro key hkey hfresh it hit
    by_cases hbetween : key ∈ between
    · exact (hty.laid key hbetween hfresh it hit).grow htypes.grown
    · exact htypes.laid key hkey hbetween it hit

theorem closes_allOf {walk : Ty → Walking → Bool × Walking} {types : List Ty}
    (hwalk : ∀ ty ∈ types, ∀ walking, (walk ty walking).1 = true →
      p.Closes walking (walk ty walking).2 [ty]) {walking : Walking}
    (h : (allOf walk types walking).1 = true) :
    p.Closes walking (allOf walk types walking).2 types := by
  induction types generalizing walking with
  | nil => exact ⟨Finset.Subset.refl _, nofun, fun key hkey hfresh => absurd hkey hfresh⟩
  | cons ty types ih =>
    rw [allOf] at h ⊢
    by_cases hty : (walk ty walking).1 = true
    · rw [if_pos hty] at h ⊢
      exact (hwalk ty List.mem_cons_self walking hty).cons
        (ih (fun it hit => hwalk it (List.mem_cons_of_mem _ hit)) h)
    · rw [if_neg hty] at h
      cases h

theorem closes_within {enter : String → Walking → Bool × Walking}
    (henter : ∀ key walking, (enter key walking).1 = true →
      p.Closes walking (enter key walking).2 [.ref (.declared key)]) (ty : Ty) :
    ∀ walking, (comparableWithin enter ty walking).1 = true →
      p.Closes walking (comparableWithin enter ty walking).2 [ty] := by
  induction ty using parts_induction id p.declared with
  | named key => exact henter key
  | made ty hmade ih =>
    intro walking h
    rw [comparableWithin_eq p.declared hmade] at h ⊢
    by_cases hrefuses : refuses ty = true
    · rw [if_pos hrefuses] at h
      cases h
    · rw [if_neg hrefuses] at h ⊢
      have hall := closes_allOf ih h
      refine ⟨hall.grown, fun it hit => ?_, hall.laid⟩
      rw [List.mem_singleton.mp hit]
      exact .made hmade (Bool.not_eq_true _ ▸ hrefuses) hall.answered

theorem closes_enter (rounds : ℕ) :
    ∀ key walking, (p.enter rounds key walking).1 = true →
      p.Closes walking (p.enter rounds key walking).2 [.ref (.declared key)] := by
  have hmet : ∀ {key : String} {walking : Walking}, key ∈ walking →
      p.Closes walking walking [.ref (.declared key)] := by
    intro key walking hkey
    refine ⟨Finset.Subset.refl _, fun it hit => ?_, fun _ h hfresh => absurd h hfresh⟩
    rw [List.mem_singleton.mp hit]
    exact .met hkey
  induction rounds with
  | zero => exact fun key walking h => hmet (of_decide_eq_true h)
  | succ rounds ih =>
    intro key walking h
    rw [enter_succ] at h ⊢
    by_cases hkey : key ∈ walking
    · rw [if_pos hkey]
      exact hmet hkey
    · rw [if_neg hkey] at h ⊢
      have hall := closes_allOf (fun ty _ => closes_within ih ty) h
      have hmem := hall.grown (Finset.mem_insert_self key walking)
      refine ⟨(Finset.subset_insert key walking).trans hall.grown, fun it hit => ?_,
        fun other hother hfresh it hit => ?_⟩
      · rw [List.mem_singleton.mp hit]
        exact .met hmem
      · by_cases hsame : other = key
        · subst hsame
          exact hall.answered it hit
        · apply hall.laid other hother _ it hit
          rw [Finset.mem_insert, not_or]
          exact ⟨hsame, hfresh⟩

/-- Where the walk answers that two values compare, nothing the type goes on to is refused. -/
theorem refuses_of_comparable {ty it : Ty} (h : p.comparable ty = true)
    (hit : Relation.ReflTransGen p.Asks ty it) : refuses it = false := by
  have hcloses := closes_within (closes_enter p.keys.card) ty ∅ h
  have hover : p.Over (comparableWithin (p.enter p.keys.card) ty ∅).2 it := by
    induction hit with
    | refl => exact hcloses.answered ty List.mem_cons_self
    | tail _ hasks ih =>
      cases ih with
      | met hkey => exact hcloses.laid _ hkey (Finset.notMem_empty _) _ hasks
      | made _ _ hparts => exact hparts _ hasks
  cases hover with
  | met => rfl
  | made _ hrefuses => exact hrefuses

theorem allOf_walks {walk : Ty → Walking → Bool × Walking} {types : List Ty} {least : Walking}
    (hwalk : ∀ ty ∈ types, ∀ walking, least ⊆ walking →
      (walk ty walking).1 = true ∧ walking ⊆ (walk ty walking).2) {walking : Walking}
    (hleast : least ⊆ walking) :
    (allOf walk types walking).1 = true ∧ walking ⊆ (allOf walk types walking).2 := by
  induction types generalizing walking with
  | nil => exact ⟨rfl, Finset.Subset.refl _⟩
  | cons ty types ih =>
    obtain ⟨hty, hgrown⟩ := hwalk ty List.mem_cons_self walking hleast
    obtain ⟨hrest, hmore⟩ := ih (fun it hit => hwalk it (List.mem_cons_of_mem _ hit))
      (hleast.trans hgrown)
    rw [allOf, if_pos hty]
    exact ⟨hrest, hgrown.trans hmore⟩

variable (p)

structure Compared (ty : Ty) : Prop where
  named : ∀ name ∈ names ty, name ∈ p.keys
  kept : ∀ it, Relation.ReflTransGen p.Asks ty it → refuses it = false

variable {p}

theorem Compared.part {ty it : Ty} (h : p.Compared ty) (hit : p.Asks ty it) : p.Compared it where
  named := by
    intro name hname
    by_cases hnamed : ∃ key, ty = .ref (.declared key)
    · obtain ⟨key, rfl⟩ := hnamed
      exact p.closed key (h.named key (List.mem_singleton_self key)) it hit name hname
    · rw [not_exists] at hnamed
      exact h.named name (names_parts hnamed hit hname)
  kept := fun last hlast => h.kept last (.head hit hlast)

theorem within_walks {enter : String → Walking → Bool × Walking} {least : Walking}
    (henter : ∀ key walking, p.Compared (.ref (.declared key)) → least ⊆ walking →
      (enter key walking).1 = true ∧ walking ⊆ (enter key walking).2) (ty : Ty) :
    p.Compared ty → ∀ walking, least ⊆ walking →
      (comparableWithin enter ty walking).1 = true ∧
        walking ⊆ (comparableWithin enter ty walking).2 := by
  induction ty using parts_induction id p.declared with
  | named key => exact fun h walking hleast => henter key walking h hleast
  | made ty hmade ih =>
    intro h walking hleast
    rw [comparableWithin_eq p.declared hmade, h.kept ty .refl, if_neg (by decide)]
    exact allOf_walks (fun it hit => ih it hit (h.part hit)) hleast

theorem enter_walks (rounds : ℕ) (key : String) (walking : Walking)
    (h : p.Compared (.ref (.declared key))) (hrounds : (p.keys \ walking).card ≤ rounds) :
    (p.enter rounds key walking).1 = true ∧ walking ⊆ (p.enter rounds key walking).2 := by
  have hkey : key ∈ p.keys := h.named key (List.mem_singleton_self key)
  induction rounds generalizing key walking with
  | zero =>
    have hnone := Finset.card_eq_zero.mp (Nat.le_zero.mp hrounds)
    have hmem := Finset.sdiff_eq_empty_iff_subset.mp hnone hkey
    exact ⟨decide_eq_true hmem, Finset.Subset.refl _⟩
  | succ rounds ih =>
    rw [enter_succ]
    by_cases hmem : key ∈ walking
    · rw [if_pos hmem]
      exact ⟨rfl, Finset.Subset.refl _⟩
    · rw [if_neg hmem]
      have hfewer : (p.keys \ insert key walking).card ≤ rounds := by
        have hlt : (p.keys \ insert key walking).card < (p.keys \ walking).card := by
          apply Finset.card_lt_card
          refine Finset.ssubset_iff_subset_ne.mpr
            ⟨Finset.sdiff_subset_sdiff (Finset.Subset.refl _) (Finset.subset_insert _ _), ?_⟩
          intro hsame
          have hin : key ∈ p.keys \ walking := Finset.mem_sdiff.mpr ⟨hkey, hmem⟩
          rw [← hsame] at hin
          exact (Finset.mem_sdiff.mp hin).2 (Finset.mem_insert_self key walking)
        omega
      have henter : ∀ other walked, p.Compared (.ref (.declared other)) →
          insert key walking ⊆ walked →
          (p.enter rounds other walked).1 = true ∧ walked ⊆ (p.enter rounds other walked).2 := by
        intro other walked hother hleast
        have hcard := Finset.card_le_card (Finset.sdiff_subset_sdiff
          (Finset.Subset.refl p.keys) hleast)
        exact ih other walked hother (hcard.trans hfewer)
          (hother.named other (List.mem_singleton_self other))
      obtain ⟨hanswer, hgrown⟩ := allOf_walks
        (fun it hit => within_walks henter it (h.part hit))
        (Finset.Subset.refl (insert key walking))
      exact ⟨hanswer, (Finset.subset_insert key walking).trans hgrown⟩

theorem comparable_iff_kept {ty : Ty} (hnamed : ∀ name ∈ names ty, name ∈ p.keys) :
    p.comparable ty = true ↔ ∀ it, Relation.ReflTransGen p.Asks ty it → refuses it = false := by
  constructor
  · exact fun h it hit => refuses_of_comparable h hit
  · intro h
    exact (within_walks (fun key walking hkey hleast => enter_walks _ key walking hkey
      (Finset.card_le_card Finset.sdiff_subset)) ty ⟨hnamed, h⟩ ∅ (Finset.Subset.refl _)).1

theorem caseCompares_iff {walked : Ty → Prop} {cases : List Case} :
    (∀ case ∈ cases, CaseCompares walked case) ↔ ∀ it ∈ namedTypes cases, walked it := by
  constructor
  · intro h it hit
    obtain ⟨key, hkey, rfl⟩ := mem_namedTypes.mp hit
    exact h _ hkey
  · intro h case hcase
    cases case with
    | declared key => exact h _ (mem_namedTypes.mpr ⟨key, hcase, rfl⟩)
    | primitive | language => trivial

/-- What is asked of one type is that it is not refused, and what it goes on to is walked. -/
theorem compares_iff {walked : Ty → Prop} {ty : Ty} :
    Compares p.declared walked ty ↔ refuses ty = false ∧ ∀ it, p.Asks ty it → walked it := by
  cases ty with
  | option held | list held | set held =>
    by_cases hvalue : held.hasNoValue = true <;>
      simp [Compares, refuses, Asks, parts, Ty.holdsNoValue, hvalue]
  | map key value =>
    by_cases hvalue : (key.hasNoValue || value.hasNoValue) = true
    · simp [Compares, refuses, Asks, parts, Ty.holdsNoValue, hvalue]
    · rw [Bool.not_eq_true] at hvalue
      simp [Compares, refuses, Asks, parts, Ty.holdsNoValue, hvalue]
  | tuple members => simp [Compares, refuses, Asks, parts, Ty.holdsNoValue]
  | union members =>
    simpa [Compares, refuses, Asks, parts, Ty.holdsNoValue] using caseCompares_iff
  | ref named =>
    cases named with
    | declared key =>
      cases hlaid : p.declared.laid key with
      | sum members =>
        simpa [Compares, refuses, Asks, parts, Ty.holdsNoValue, hlaid] using caseCompares_iff
      | product | newtype | unit => simp [Compares, refuses, Asks, parts, Ty.holdsNoValue, hlaid]
    | primitive | language => simp [Compares, refuses, Asks, parts]
  | prim | fn | var | nothing | never => simp [Compares, refuses, Asks, parts]

/-- The walk answers what is said of two values that compare, without the rounds it takes. -/
theorem comparable_iff {ty : Ty} (hnamed : ∀ name ∈ names ty, name ∈ p.keys) :
    p.comparable ty = true ↔ Comparable p.declared ty := by
  rw [comparable_iff_kept hnamed]
  constructor
  · intro h
    exact ⟨Relation.ReflTransGen p.Asks ty, .refl, fun it hit =>
      compares_iff.mpr ⟨h it hit, fun held hheld => hit.tail hheld⟩⟩
  · rintro ⟨walked, hty, hclosed⟩ it hit
    have hwalked : walked it := by
      induction hit with
      | refl => exact hty
      | tail _ hasks ih => exact (compares_iff.mp (hclosed _ ih)).2 _ hasks
    exact (compares_iff.mp (hclosed it hwalked)).1

variable {ty it : Ty}

theorem mem_leaves_of_sum {key : String} {members : Cases}
    (hlaid : p.declared.laid key = .sum members) (leaf : Case) :
    leaf ∈ p.declared.leavesOf members.cases ↔ leaf ∈ members.cases := by
  rw [Declared.mem_leavesOf]
  constructor
  · rintro ⟨member, hmember, hleaf⟩
    rw [p.declared.reached_case hlaid hmember, List.mem_singleton] at hleaf
    rwa [hleaf]
  · exact fun hleaf => ⟨leaf, hleaf, by simp [p.declared.reached_case hlaid hleaf]⟩

theorem parts_sum (fork : List Case → List Case) {key : String} {members : Cases}
    (hlaid : p.declared.laid key = .sum members) :
    parts fork p.declared (.ref (.declared key)) = namedTypes (fork members.cases) := by
  rw [parts, if_neg (show ¬(Ty.ref (.declared key)).holdsNoValue = true from nofun), hlaid]

/-- Only a union goes on to other types as the cases it descends to than as its members. -/
theorem holds_iff_asks (hunion : ∀ members, ty ≠ .union members) :
    p.Holds ty it ↔ p.Asks ty it := by
  cases ty with
  | union members => exact absurd rfl (hunion members)
  | ref named =>
    cases named with
    | declared key =>
      cases hlaid : p.declared.laid key with
      | sum members =>
        rw [Holds, Asks, parts_sum _ hlaid, parts_sum _ hlaid, mem_namedTypes, mem_namedTypes]
        simp only [mem_leaves_of_sum hlaid, id]
      | product | newtype | unit => simp only [Holds, Asks, parts, hlaid]
    | primitive | language => exact Iff.rfl
  | _ => exact Iff.rfl

theorem asks_of_holds (h : p.Holds ty it) : Relation.ReflTransGen p.Asks ty it := by
  by_cases hunion : ∃ members, ty = .union members
  · obtain ⟨members, rfl⟩ := hunion
    obtain ⟨key, hkey, rfl⟩ := mem_namedTypes.mp h
    obtain ⟨member, hmember, hleaf⟩ := (p.declared.mem_leavesOf _ _).mp hkey
    cases member with
    | primitive | language => cases List.mem_singleton.mp hleaf
    | declared name =>
      have hfirst : p.Asks (.union members) (.ref (.declared name)) :=
        mem_namedTypes.mpr ⟨name, hmember, rfl⟩
      rw [Declared.reached] at hleaf
      split at hleaf
      · next cases hlaid =>
        have hsecond : p.Asks (.ref (.declared name)) (.ref (.declared key)) := by
          rw [Asks, parts_sum _ hlaid]
          exact mem_namedTypes.mpr ⟨key, hleaf, rfl⟩
        exact .tail (.single hfirst) hsecond
      · rw [List.mem_singleton.mp hleaf]
        exact .single hfirst
  · rw [not_exists] at hunion
    exact .single ((holds_iff_asks hunion).mp h)

/-- A type the walk goes on to is one a comparison holds, or a sum a union names, whose cases a
    comparison holds. -/
theorem held_of_asked (h : Relation.ReflTransGen p.Asks ty it) :
    Relation.ReflTransGen p.Holds ty it ∨
      ∃ key members, it = .ref (.declared key) ∧ p.declared.laid key = .sum members ∧
        ∀ leaf, Case.declared leaf ∈ members.cases →
          Relation.ReflTransGen p.Holds ty (.ref (.declared leaf)) := by
  induction h with
  | refl => exact .inl .refl
  | @tail before it _ hasks ih =>
    rcases ih with hheld | ⟨key, members, rfl, hlaid, hleaves⟩
    · by_cases hunion : ∃ members, before = .union members
      · obtain ⟨members, rfl⟩ := hunion
        obtain ⟨key, hkey, rfl⟩ := mem_namedTypes.mp hasks
        have hholds : ∀ leaf, Case.declared leaf ∈ p.declared.reached (.declared key) →
            Relation.ReflTransGen p.Holds ty (.ref (.declared leaf)) := fun leaf hleaf =>
          hheld.tail (mem_namedTypes.mpr
            ⟨leaf, (p.declared.mem_leavesOf _ _).mpr ⟨_, hkey, hleaf⟩, rfl⟩)
        cases hlaid : p.declared.laid key with
        | sum cases =>
          refine .inr ⟨key, cases, rfl, hlaid, fun leaf hleaf => hholds leaf ?_⟩
          rw [Declared.reached, hlaid]
          exact hleaf
        | product | newtype | unit =>
          left
          apply hholds
          rw [Declared.reached, hlaid]
          exact List.mem_singleton_self _
      · rw [not_exists] at hunion
        exact .inl (hheld.tail ((holds_iff_asks hunion).mpr hasks))
    · rw [Asks, parts_sum _ hlaid] at hasks
      obtain ⟨leaf, hleaf, rfl⟩ := mem_namedTypes.mp hasks
      exact .inl (hleaves leaf hleaf)

theorem kept_iff : (∀ it, Relation.ReflTransGen p.Asks ty it → refuses it = false) ↔
    ∀ it, Relation.ReflTransGen p.Holds ty it → refuses it = false := by
  constructor
  · intro h it hit
    apply h
    exact Relation.reflTransGen_closed (fun _ _ => asks_of_holds) _ _ hit
  · intro h it hit
    rcases held_of_asked hit with hheld | ⟨key, members, rfl, -, -⟩
    · exact h it hheld
    · rfl

theorem andThen_eq_ok {one rest : Lowered (List Owed)} {all : List Owed} :
    andThen one rest = .ok all ↔
      ∃ owed more, one = .ok owed ∧ rest = .ok more ∧ all = owed ++ more := by
  constructor
  · intro h
    obtain ⟨owed, hone, h⟩ := of_bind h
    obtain ⟨more, hrest, hall⟩ := of_map h
    exact ⟨owed, more, hone, hrest, hall.symm⟩
  · rintro ⟨owed, more, rfl, rfl, rfl⟩
    rfl

theorem equal_kept (h : refuses ty = false) : ∃ all, equal ty = .ok all := by
  cases ty with
  | ref named =>
    cases named with
    | primitive => cases h
    | declared | language => exact ⟨_, rfl⟩
  | option held | list held | set held =>
    rw [equal]
    split <;> exact ⟨_, rfl⟩
  | map key value =>
    rw [equal]
    split <;> exact ⟨_, rfl⟩
  | prim | union | tuple => exact ⟨_, rfl⟩
  | fn | var | nothing | never => cases h

theorem kept_of_equal {all : List Owed} (h : equal ty = .ok all) : refuses ty = false := by
  cases ty with
  | ref named =>
    cases named with
    | primitive => cases h
    | declared | language => rfl
  | fn | var | nothing | never => cases h
  | _ => rfl

theorem machineType_kept (h : refuses ty = false) : ∃ made, machineType ty = .ok made := by
  cases ty with
  | ref named =>
    cases named with
    | primitive => cases h
    | declared | language => exact ⟨_, rfl⟩
  | prim p => cases p <;> exact ⟨_, rfl⟩
  | fn | var | nothing | never => cases h
  | _ => exact ⟨_, rfl⟩

theorem slot_eq_ok {all : List Owed} : slot ty = .ok all ↔ equal ty = .ok all := by
  constructor
  · intro h
    obtain ⟨made, -, h⟩ := of_bind h
    exact h
  · intro h
    obtain ⟨made, hmade⟩ := machineType_kept (kept_of_equal h)
    rw [slot, hmade]
    exact h

/-- A comparison owes a comparator of its own type, or the equality of each type it goes on to. -/
theorem equal_inv {all : List Owed} (h : equal ty = .ok all) :
    all = [.comparator ty] ∨
      all = (parts p.declared.leavesOf p.declared ty).map .equality ∧
        ∀ it ∈ parts p.declared.leavesOf p.declared ty, it.hasNoValue = false := by
  cases ty with
  | set member =>
    right
    rw [equal] at h
    split at h
    · next hheld =>
      cases h
      simp [parts, hheld]
    · next hheld =>
      cases h
      have hparts : parts p.declared.leavesOf p.declared (.set member) = [member] := if_neg hheld
      rw [hparts]
      refine ⟨rfl, fun it hit => ?_⟩
      rw [List.mem_singleton.mp hit]
      exact Bool.not_eq_true _ ▸ hheld
  | map key value =>
    right
    rw [equal] at h
    split at h
    · next hheld =>
      cases h
      simp [parts, hheld]
    · next hheld =>
      cases h
      have hparts : parts p.declared.leavesOf p.declared (.map key value) = [key, value] :=
        if_neg hheld
      rw [hparts]
      rw [Ty.holdsNoValue, Bool.or_eq_true, not_or, Bool.not_eq_true, Bool.not_eq_true] at hheld
      refine ⟨rfl, fun it hit => ?_⟩
      rcases List.mem_cons.mp hit with rfl | hlast
      · exact hheld.1
      · rw [List.mem_singleton.mp hlast]
        exact hheld.2
  | option held | list held =>
    rw [equal] at h
    split at h
    · next hheld =>
      cases h
      right
      simp [parts, hheld]
    · cases h
      exact .inl rfl
  | tuple | union =>
    cases h
    exact .inl rfl
  | ref named =>
    cases named with
    | declared key =>
      cases h
      exact .inl rfl
    | primitive => cases h
    | language =>
      cases h
      exact .inr ⟨rfl, fun it hit => by cases hit⟩
  | prim =>
    cases h
    exact .inr ⟨rfl, fun it hit => by cases hit⟩
  | fn | var | nothing | never => cases h

theorem slots_part {types : List Ty} {all : List Owed} (h : slots types = .ok all)
    (hit : it ∈ types) : ∃ some, equal it = .ok some ∧ some ⊆ all := by
  induction types generalizing all with
  | nil => cases hit
  | cons ty types ih =>
    obtain ⟨owed, more, hslot, hslots, rfl⟩ := andThen_eq_ok.mp h
    rcases List.mem_cons.mp hit with rfl | hit
    · exact ⟨owed, slot_eq_ok.mp hslot, List.subset_append_left owed more⟩
    · obtain ⟨some, hsome, hsub⟩ := ih hslots hit
      exact ⟨some, hsome, List.Subset.trans hsub (List.subset_append_right owed more)⟩

theorem slots_made {types : List Ty} (h : ∀ it ∈ types, refuses it = false) :
    ∃ all, slots types = .ok all ∧
      ∀ owed ∈ all, ∃ it ∈ types, ∃ some, equal it = .ok some ∧ owed ∈ some := by
  induction types with
  | nil => exact ⟨[], rfl, nofun⟩
  | cons ty types ih =>
    obtain ⟨owed, howed⟩ := equal_kept (h ty List.mem_cons_self)
    obtain ⟨more, hmore, hfrom⟩ := ih fun it hit => h it (List.mem_cons_of_mem _ hit)
    refine ⟨owed ++ more, andThen_eq_ok.mpr ⟨owed, more, slot_eq_ok.mpr howed, hmore, rfl⟩, ?_⟩
    intro it hit
    rcases List.mem_append.mp hit with hit | hit
    · exact ⟨ty, List.mem_cons_self, owed, howed, hit⟩
    · obtain ⟨held, hheld, some, hsome, hin⟩ := hfrom it hit
      exact ⟨held, List.mem_cons_of_mem _ hheld, some, hsome, hin⟩

theorem tokenOf_iff {leaf : Case} : p.tokenOf leaf = .ok () ↔ p.hasToken leaf = true := by
  cases leaf with
  | declared key =>
    simp only [tokenOf, tag, hasToken]
    cases p.declaredBy key with
    | aModule | onThePath => simp
    | theLanguage => by_cases hunit : p.place key ∈ LANGUAGE_UNITS <;> simp [hunit]
  | primitive | language => simp [tokenOf, hasToken]

theorem fork_part {leaves : List Case} {all : List Owed} (h : p.fork leaves = .ok all)
    (hit : it ∈ namedTypes leaves) : ∃ some, equal it = .ok some ∧ some ⊆ all := by
  obtain ⟨key, hkey, rfl⟩ := mem_namedTypes.mp hit
  fun_induction fork p leaves generalizing all with
  | case1 => cases hkey
  | case2 leaf =>
    rw [← List.mem_singleton.mp hkey] at h
    exact ⟨all, h, List.Subset.refl all⟩
  | case3 leaf next leaves ih =>
    obtain ⟨⟨⟩, -, h⟩ := of_bind h
    obtain ⟨owed, more, hleaf, hleaves, rfl⟩ := andThen_eq_ok.mp h
    rcases List.mem_cons.mp hkey with rfl | hkey
    · exact ⟨owed, hleaf, List.subset_append_left owed more⟩
    · obtain ⟨some, hsome, hsub⟩ := ih hleaves hkey (mem_namedTypes.mpr ⟨key, hkey, rfl⟩)
      exact ⟨some, hsome, List.Subset.trans hsub (List.subset_append_right owed more)⟩

theorem fork_tokens {leaves : List Case} {all : List Owed} (h : p.fork leaves = .ok all) :
    ∀ leaf ∈ leaves.dropLast, p.hasToken leaf = true := by
  fun_induction fork p leaves generalizing all with
  | case1 => exact nofun
  | case2 leaf => exact nofun
  | case3 leaf next leaves ih =>
    obtain ⟨⟨⟩, htoken, h⟩ := of_bind h
    obtain ⟨owed, more, -, hleaves, -⟩ := andThen_eq_ok.mp h
    intro it hit
    rw [List.dropLast_cons_cons] at hit
    rcases List.mem_cons.mp hit with rfl | hit
    · exact tokenOf_iff.mp htoken
    · exact ih hleaves it hit

theorem asTheCase_made (leaf : Case) : ∃ all, asTheCase leaf = .ok all ∧
    ∀ owed ∈ all, ∃ it ∈ namedTypes [leaf], ∃ some, equal it = .ok some ∧ owed ∈ some := by
  cases leaf with
  | declared key => exact ⟨_, rfl, fun owed howed =>
      ⟨_, mem_namedTypes.mpr ⟨key, List.mem_singleton_self _, rfl⟩, _, rfl, howed⟩⟩
  | primitive p => exact ⟨[], slot_eq_ok.mpr rfl, nofun⟩
  | language => exact ⟨[], rfl, nofun⟩

theorem fork_made {leaves : List Case} (h : ∀ leaf ∈ leaves.dropLast, p.hasToken leaf = true) :
    ∃ all, p.fork leaves = .ok all ∧
      ∀ owed ∈ all, ∃ it ∈ namedTypes leaves, ∃ some, equal it = .ok some ∧ owed ∈ some := by
  induction leaves with
  | nil => exact ⟨[], rfl, nofun⟩
  | cons leaf leaves ih =>
    cases leaves with
    | nil => exact asTheCase_made leaf
    | cons next leaves =>
      rw [List.dropLast_cons_cons] at h
      obtain ⟨owed, hleaf, hfrom⟩ := asTheCase_made leaf
      obtain ⟨more, hmore, hrest⟩ := ih fun it hit => h it (List.mem_cons_of_mem _ hit)
      have htoken := tokenOf_iff.mpr (h leaf List.mem_cons_self)
      refine ⟨owed ++ more, ?_, ?_⟩
      · rw [fork, htoken]
        exact andThen_eq_ok.mpr ⟨owed, more, hleaf, hmore, rfl⟩
      · intro one hone
        rcases List.mem_append.mp hone with hone | hone
        · obtain ⟨it, hit, hsome⟩ := hfrom one hone
          obtain ⟨key, hkey, rfl⟩ := mem_namedTypes.mp hit
          exact ⟨_, mem_namedTypes.mpr
            ⟨key, List.mem_cons.mpr (.inl (List.mem_singleton.mp hkey)), rfl⟩, hsome⟩
        · obtain ⟨it, hit, hsome⟩ := hrest one hone
          obtain ⟨key, hkey, rfl⟩ := mem_namedTypes.mp hit
          exact ⟨_, mem_namedTypes.mpr ⟨key, List.mem_cons_of_mem _ hkey, rfl⟩, hsome⟩

theorem slots_one (ty : Ty) : slots [ty] = slot ty := by
  rw [slots, slots, andThen]
  cases slot ty with
  | error e => rfl
  | ok owed => simp [Except.bind, Except.map]

/-- A comparator's body is the slots of what its type holds, or the fork on its cases. -/
theorem body_cases (h : equal ty = .ok [.comparator ty]) :
    (p.body ty = slots (parts p.declared.leavesOf p.declared ty) ∧ p.alternatives ty = []) ∨
      p.body ty = p.fork (p.alternatives ty) ∧
        parts p.declared.leavesOf p.declared ty = namedTypes (p.alternatives ty) := by
  cases ty with
  | option held | list held =>
    rw [equal] at h
    split at h
    · cases h
    · next hheld =>
      left
      simp [body, parts, hheld, alternatives, slots_one]
  | tuple members => exact .inl ⟨rfl, rfl⟩
  | union members => exact .inr ⟨rfl, rfl⟩
  | ref named =>
    cases named with
    | declared key =>
      cases hlaid : p.declared.laid key with
      | sum members =>
        right
        simp [body, alternatives, hlaid, parts_sum _ hlaid, cases]
      | product | newtype | unit =>
        left
        simp [body, alternatives, hlaid, parts, Ty.holdsNoValue, slots]
    | primitive | language => cases h
  | set | map =>
    rw [equal] at h
    split at h <;> cases h
  | prim | fn | var | nothing | never => cases h

theorem Lowers.part (h : p.Lowers ty) (hit : p.Holds ty it) : p.Lowers it := by
  -- A function a comparison of `ty` owes has in its body the comparison of two values of `it`.
  have hwritten : ∃ owed all some, p.Reached ty owed ∧ p.written owed = .ok all ∧
      equal it = .ok some ∧ some ⊆ all := by
    obtain ⟨all, hall⟩ := h.asked
    rcases @equal_inv p _ _ hall with rfl | ⟨rfl, hvalues⟩
    · have hreached : p.Reached ty (.comparator ty) := .asked hall (List.mem_singleton_self _)
      obtain ⟨all, hbody⟩ := h.owed _ hreached
      rcases body_cases hall with ⟨hslots, -⟩ | ⟨hfork, hparts⟩
      · obtain ⟨some, hsome, hsub⟩ := slots_part (hslots.symm.trans hbody) hit
        exact ⟨_, all, some, hreached, hbody, hsome, hsub⟩
      · have hmember : it ∈ parts p.declared.leavesOf p.declared ty := hit
        rw [hparts] at hmember
        obtain ⟨some, hsome, hsub⟩ := fork_part (hfork.symm.trans hbody) hmember
        exact ⟨_, all, some, hreached, hbody, hsome, hsub⟩
    · have hreached : p.Reached ty (.equality it) := .asked hall (List.mem_map_of_mem hit)
      obtain ⟨some, hsome⟩ := h.owed _ hreached
      have hslot := hsome
      rw [written, hvalues it hit, if_neg (by decide), slot_eq_ok] at hslot
      exact ⟨_, some, some, hreached, hsome, hslot, List.Subset.refl some⟩
  obtain ⟨owed, all, some, hreached, hall, hsome, hsub⟩ := hwritten
  refine ⟨⟨some, hsome⟩, fun it hit => h.owed it ?_⟩
  induction hit with
  | asked hasked howed =>
    rw [hsome] at hasked
    cases hasked
    exact .inTurn hreached hall (hsub howed)
  | inTurn _ hasked hmore ih => exact .inTurn ih hasked hmore

theorem Lowers.tokened (h : p.Lowers ty) : p.Tokened ty := by
  by_cases halternatives : p.alternatives ty = []
  · rw [Tokened, halternatives]
    exact nofun
  · have hequal : equal ty = .ok [.comparator ty] := by
      cases ty with
      | union => rfl
      | ref named =>
        cases named with
        | declared => rfl
        | primitive | language => exact absurd rfl halternatives
      | _ => exact absurd rfl halternatives
    obtain ⟨all, hall⟩ := h.owed _ (.asked hequal (List.mem_singleton_self _))
    rcases body_cases hequal with ⟨-, hnone⟩ | ⟨hfork, -⟩
    · exact absurd hnone halternatives
    · exact fork_tokens (hfork.symm.trans hall)

/-- What is owed by a comparison of two values of a type `ty` holds, at any depth. -/
def OwedWithin (p : Crossed) (ty : Ty) (owed : Owed) : Prop :=
  ∃ it, Relation.ReflTransGen p.Holds ty it ∧
    (owed = .equality it ∨ owed = .comparator it ∧ equal it = .ok [.comparator it])

theorem owedWithin_of_equal {all : List Owed} {owed : Owed}
    (hit : Relation.ReflTransGen p.Holds ty it) (h : equal it = .ok all) (howed : owed ∈ all) :
    p.OwedWithin ty owed := by
  rcases @equal_inv p _ _ h with rfl | ⟨rfl, -⟩
  · exact ⟨it, hit, .inr ⟨List.mem_singleton.mp howed, h⟩⟩
  · obtain ⟨held, hheld, rfl⟩ := List.mem_map.mp howed
    exact ⟨held, hit.tail hheld, .inl rfl⟩

theorem written_made
    (h : ∀ it, Relation.ReflTransGen p.Holds ty it → refuses it = false ∧ p.Tokened it)
    {owed : Owed} (howed : p.OwedWithin ty owed) :
    ∃ all, p.written owed = .ok all ∧ ∀ more ∈ all, p.OwedWithin ty more := by
  obtain ⟨it, hit, rfl | ⟨rfl, hequal⟩⟩ := howed
  · by_cases hvalue : it.hasNoValue = true
    · exact ⟨[], if_pos hvalue, nofun⟩
    · obtain ⟨all, hall⟩ := equal_kept (h it hit).1
      refine ⟨all, ?_, fun more hmore => owedWithin_of_equal hit hall hmore⟩
      rw [written, if_neg hvalue, slot_eq_ok]
      exact hall
  · have hmade : ∃ all, p.body it = .ok all ∧
        ∀ more ∈ all, ∃ held, p.Holds it held ∧ ∃ some, equal held = .ok some ∧ more ∈ some := by
      rcases body_cases hequal with ⟨hslots, -⟩ | ⟨hfork, hparts⟩
      · rw [hslots]
        exact slots_made fun held hheld => (h held (hit.tail hheld)).1
      · simp only [hfork, Holds, hparts]
        exact fork_made (h it hit).2
    obtain ⟨all, hall, hfrom⟩ := hmade
    refine ⟨all, hall, fun more hmore => ?_⟩
    obtain ⟨held, hheld, some, hsome, hin⟩ := hfrom more hmore
    exact owedWithin_of_equal (hit.tail hheld) hsome hin

/-- A comparison is lowered exactly where nothing its type holds is refused and each case forked on
    but a last has a token. -/
theorem lowers_iff : p.Lowers ty ↔
    ∀ it, Relation.ReflTransGen p.Holds ty it → refuses it = false ∧ p.Tokened it := by
  constructor
  · intro h it hit
    have hlowers : p.Lowers it := by
      induction hit with
      | refl => exact h
      | tail _ hheld ih => exact ih.part hheld
    obtain ⟨all, hall⟩ := hlowers.asked
    exact ⟨kept_of_equal hall, hlowers.tokened⟩
  · intro h
    refine ⟨equal_kept (h ty .refl).1, fun owed hreached => ?_⟩
    have howed : p.OwedWithin ty owed := by
      induction hreached with
      | asked hequal howed => exact owedWithin_of_equal .refl hequal howed
      | inTurn _ hasked hmore ih =>
        obtain ⟨all, hall, hfrom⟩ := written_made h ih
        rw [hasked] at hall
        cases hall
        exact hfrom _ hmore
    obtain ⟨all, hall, -⟩ := written_made h howed
    exact ⟨all, hall⟩

end Crossed

/-- The walk answers as the comparison is lowered exactly where something the type holds is refused,
    or every set of alternatives it holds has a token for each of its cases but the last. -/
theorem comparable_as_lowered (p : Crossed) {ty : Ty} (hnamed : ∀ name ∈ names ty, name ∈ p.keys) :
    (p.comparable ty = true ↔ p.Lowers ty) ↔
      (∃ it, Relation.ReflTransGen p.Holds ty it ∧ refuses it = true) ∨
        ∀ it, Relation.ReflTransGen p.Holds ty it → p.Tokened it := by
  rw [Crossed.comparable_iff_kept hnamed, Crossed.kept_iff, Crossed.lowers_iff]
  constructor
  · intro h
    by_cases hkept : ∀ it, Relation.ReflTransGen p.Holds ty it → refuses it = false
    · exact .inr fun it hit => (h.mp hkept it hit).2
    · push Not at hkept
      obtain ⟨it, hit, hrefuses⟩ := hkept
      exact .inl ⟨it, hit, Bool.not_eq_false _ ▸ hrefuses⟩
  · rintro (⟨it, hit, hrefuses⟩ | htokened)
    · constructor
      · intro h
        rw [h it hit] at hrefuses
        cases hrefuses
      · intro h
        rw [(h it hit).1] at hrefuses
        cases hrefuses
    · exact ⟨fun h it hit => ⟨h it hit, htokened it hit⟩, fun h it hit => (h it hit).1⟩

def sideways : Crossed where
  declared := ⟨fun _ => .unit, by simp⟩
  declaredBy _ := .theLanguage
  place key :=
    ("souther.decimal", if key = "souther.decimal.SIDEWAYS" then "SIDEWAYS" else "HALF_UP")
  keys := {"souther.decimal.SIDEWAYS", "souther.decimal.HALF_UP"}
  closed _ _ _ h := by cases h

def rounding : Ty :=
  .union ⟨[.declared "souther.decimal.SIDEWAYS", .declared "souther.decimal.HALF_UP"], by simp⟩

/-- Two values of the union are said to compare, and the fork on which they are is refused. -/
theorem comparable_unlowered :
    ¬(sideways.comparable rounding = true ↔ sideways.Lowers rounding) := by
  intro h
  have hcomparable : sideways.comparable rounding = true := by decide
  have htoken := (h.mp hcomparable).tokened (.declared "souther.decimal.SIDEWAYS") (by decide)
  exact absurd htoken (by decide)

theorem comparable_as_lowered_rounding :
    (sideways.comparable rounding = true ↔ sideways.Lowers rounding) ↔
      (∃ it, Relation.ReflTransGen sideways.Holds rounding it ∧ refuses it = true) ∨
        ∀ it, Relation.ReflTransGen sideways.Holds rounding it → sideways.Tokened it :=
  comparable_as_lowered sideways (by decide)

end SoutherNative.Comparables
