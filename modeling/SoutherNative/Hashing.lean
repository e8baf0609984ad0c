import SoutherNative.Values

set_option autoImplicit false

/-!
# What a value hashes to

The plan a type is hashed by, and the hash its hasher composes of a value: a value that says its
case hashes as the case it is, whatever it is read as.
-/
namespace SoutherNative.Hashing
open Transport HashTrie Values

def HASH_START : BitVec 64 := 0#64

def HASH_PRESENT : BitVec 64 := 1#64

inductive Plan
  | word
  | runtime (prim : Prim)
  | asItsCase
  | option (held : Plan)
  | tuple (members : List Plan)
  | list (element : Plan)
  | set (member : Plan)
  | map (key value : Plan)
  | unreached

def openType (var : ℕ) : String :=
  s!"a value of the type variable {var}, which no call of the helper it stands in settles"

def namedAsAType (ty : Ty) : String := s!"a value of {ty.spelt}, named as a type on its own"

def Plan.isUnreached : Plan → Bool
  | .unreached => true
  | _ => false

mutual

/-- `Plan::of`: how a value of `ty` is hashed. -/
def Plan.of : Ty → Lowered Plan
  | .prim .int | .prim .bool => .ok .word
  | .prim p => .ok (.runtime p)
  | .fn takes answers => .error s!"the hash of {(Ty.fn takes answers).spelt}"
  | .var n => .error (openType n)
  | .ref (.primitive p) => .error (namedAsAType (.ref (.primitive p)))
  | .nothing | .never => .ok .unreached
  | .ref (.declared _) | .ref (.language _) | .union _ => .ok .asItsCase
  | .option held => (Plan.of held).map .option
  | .list element => (Plan.of element).map .list
  | .set member => (Plan.of member).map .set
  | .map key value => (Plan.of key).bind (fun k => (Plan.of value).map (.map k))
  | .tuple members => (Plan.ofEach members).map (fun plans =>
      if plans.any Plan.isUnreached then .unreached else .tuple plans)

def Plan.ofEach : List Ty → Lowered (List Plan)
  | [] => .ok []
  | ty :: tys => (Plan.of ty).bind (fun plan => (Plan.ofEach tys).map (plan :: ·))

end

mutual

/-- Whether every value hashed by this plan hashes alike by `wider`. -/
def Plan.agrees : Plan → Plan → Bool
  | .unreached, _ => true
  | .word, .word | .asItsCase, .asItsCase => true
  | .runtime one, .runtime other => one = other
  | .option one, .option other | .list one, .list other | .set one, .set other =>
    Plan.agrees one other
  | .tuple one, .tuple other => Plan.agreeEach one other
  | .map key value, .map key' value' => Plan.agrees key key' && Plan.agrees value value'
  | _, _ => false

def Plan.agreeEach : List Plan → List Plan → Bool
  | [], [] => true
  | one :: ones, other :: others => Plan.agrees one other && Plan.agreeEach ones others
  | _, _ => false

end

def unreached (ty : Ty) : Bool :=
  match Plan.of ty with
  | .ok plan => plan.isUnreached
  | .error _ => false

/-- The case a value carrying `token` is read as where it is one of `leaves`: the first whose token
    it carries, and the last where it carries none of the others. -/
def told (token : Case → ℕ) (which : ℕ) : List Case → Option Case
  | [] => none
  | [leaf] => some leaf
  | leaf :: leaves => if which = token leaf then some leaf else told token which leaves

def fieldTypes : Declaration → List Ty
  | .product fields => fields.map CodecShape.ty
  | .newtype field => [field.ty]
  | .unit | .sum _ => []

def bodyOf (declared : Declared) : Case → List Ty
  | .declared key => fieldTypes (declared.laid key)
  | .primitive p => [.prim p]
  | .language _ => []

def caseOf {R Key : Type} [LinearOrder Key] (lowering : Lowerings R Key) (ty : Ty) (which : Case) :
    Option Case :=
  match ty with
  | .ref (.declared key) =>
    match lowering.declared.laid key with
    | .sum cases =>
      told lowering.token (lowering.token which) (lowering.declared.leavesOf cases.cases)
    | _ => some (.declared key)
  | .ref (.language case) => some (.language case)
  | .union union =>
    told lowering.token (lowering.token which) (lowering.declared.leavesOf union.cases)
  | _ => none

/-- `souther_set_hash`, over the entries a set's trie lists. -/
def setHash {K V : Type} (entries : List (Entry K V)) : BitVec 64 :=
  combine (BitVec.ofNat 64 entries.length)
    (entries.foldl (fun sum entry => sum + mix entry.hash) 0#64)

section Hash

variable {R Key : Type} [LinearOrder Key] (lowering : Lowerings R Key)

theorem sizeOf_zip_snd {A B : Type} [SizeOf A] [SizeOf B] {as : List A} {bs : List B} {pair : A × B}
    (h : pair ∈ as.zip bs) : sizeOf pair.2 < sizeOf bs :=
  List.sizeOf_lt_of_mem (List.of_mem_zip h).2

theorem sizeOf_value {K V : Type} [SizeOf K] [SizeOf V] {entries : List (Entry K V)}
    {entry : Entry K V} (h : entry ∈ entries) : sizeOf entry.value < sizeOf entries := by
  have hlt := List.sizeOf_lt_of_mem h
  have hentry : sizeOf entry.value < sizeOf entry := by
    cases entry
    simp only [Entry.mk.sizeOf_spec]
    omega
  omega

/-- The hash of a value of `ty`, composed as its plan says. A value no type says is laid out so
    hashes to nothing in particular. -/
def hash (ty : Ty) (value : Val R) : BitVec 64 :=
  match ty, value with
  | .prim .int, value | .prim .bool, value => combine HASH_START value.bits
  | .prim p, .amount _ kept => lowering.primitives.hash p kept
  | .option held, value =>
    if unreached held then HASH_START
    else
      match value with
      | .held value => combine HASH_PRESENT (hash held value)
      | _ => HASH_START
  | .tuple types, .members members =>
    if unreached (.tuple types) then HASH_START
    else
      (types.zip members).attach.foldl
        (fun hashed slot => combine hashed (hash slot.1.1 slot.1.2)) HASH_START
  | .list element, .list elements =>
    let from' := combine HASH_START (BitVec.ofNat 64 elements.length)
    if unreached element then from'
    else elements.foldl (fun hashed value => combine hashed (hash element value)) from'
  | .set _, .set entries => setHash entries
  | .map _ held, .map entries =>
    combine (BitVec.ofNat 64 entries.length)
      (entries.foldl (fun sum entry => sum + combine entry.hash (hash held entry.value)) 0#64)
  | ty, .tagged which slots =>
    match caseOf lowering ty which with
    | some leaf =>
      ((bodyOf lowering.declared leaf).zip slots).attach.foldl
        (fun hashed slot => combine hashed (hash slot.1.1 slot.1.2))
        (combine HASH_START (lowering.tokenWord leaf))
    | none => HASH_START
  | _, _ => HASH_START
termination_by value
decreasing_by
  all_goals simp only [Val.held.sizeOf_spec, Val.members.sizeOf_spec, Val.list.sizeOf_spec,
    Val.map.sizeOf_spec, Val.tagged.sizeOf_spec]
  · omega
  · have := sizeOf_zip_snd slot.2
    omega
  · have := List.sizeOf_lt_of_mem ‹value ∈ elements›
    omega
  · have := sizeOf_value ‹entry ∈ entries›
    omega
  · have := sizeOf_zip_snd slot.2
    omega

def slotsHash (start : BitVec 64) (types : List Ty) (slots : List (Val R)) : BitVec 64 :=
  (types.zip slots).foldl (fun hashed slot => combine hashed (hash lowering slot.1 slot.2)) start

theorem foldl_attach {A B : Type} (step : B → A → B) (list : List A) (start : B) :
    list.attach.foldl (fun b a => step b a.1) start = list.foldl step start :=
  List.foldl_attach

theorem foldl_attach_slots (f : Ty → Val R → BitVec 64) (slots : List (Ty × Val R))
    (start : BitVec 64) :
    slots.attach.foldl (fun hashed slot => combine hashed (f slot.1.1 slot.1.2)) start =
      slots.foldl (fun hashed slot => combine hashed (f slot.1 slot.2)) start :=
  foldl_attach (fun hashed slot => combine hashed (f slot.1 slot.2)) slots start

theorem hash_tuple (types : List Ty) (members : List (Val R)) :
    hash lowering (.tuple types) (.members members) =
      if unreached (.tuple types) then HASH_START else slotsHash lowering HASH_START types members := by
  rw [hash, foldl_attach_slots (hash lowering)]
  rfl

theorem hash_int (value : Val R) :
    hash lowering (.prim .int) value = combine HASH_START value.bits := by
  rw [hash]

theorem hash_bool (value : Val R) :
    hash lowering (.prim .bool) value = combine HASH_START value.bits := by
  rw [hash]

theorem hash_amount {p : Prim} (hint : p ≠ .int) (hbool : p ≠ .bool) (p' : Prim) (kept : R) :
    hash lowering (.prim p) (.amount p' kept) = lowering.primitives.hash p kept := by
  cases p <;> first | contradiction | simp [hash]

theorem hash_absent (held : Ty) : hash lowering (.option held) .absent = HASH_START := by
  simp [hash]

theorem hash_held (held : Ty) (value : Val R) :
    hash lowering (.option held) (.held value) =
      if unreached held then HASH_START else combine HASH_PRESENT (hash lowering held value) := by
  rw [hash]

theorem hash_list (element : Ty) (elements : List (Val R)) :
    hash lowering (.list element) (.list elements) =
      if unreached element then combine HASH_START (BitVec.ofNat 64 elements.length)
      else elements.foldl (fun hashed value => combine hashed (hash lowering element value))
        (combine HASH_START (BitVec.ofNat 64 elements.length)) := by
  rw [hash]

theorem hash_set (member : Ty) (entries : List (Entry (Val R) Int64)) :
    hash lowering (.set member) (.set entries) = setHash entries := by
  rw [hash]

theorem hash_map (key held : Ty) (entries : List (Entry (Val R) (Val R))) :
    hash lowering (.map key held) (.map entries) =
      combine (BitVec.ofNat 64 entries.length)
        (entries.foldl (fun sum entry => sum + combine entry.hash (hash lowering held entry.value))
          0#64) := by
  rw [hash]

theorem hash_tagged {ty : Ty} {which leaf : Case} (slots : List (Val R))
    (h : caseOf lowering ty which = some leaf) :
    hash lowering ty (.tagged which slots) =
      slotsHash lowering (combine HASH_START (lowering.tokenWord leaf)) (bodyOf lowering.declared leaf)
        slots := by
  cases ty with
  | ref named =>
    simp only [hash, h]
    exact foldl_attach_slots (hash lowering) _ _
  | union members =>
    simp only [hash, h]
    exact foldl_attach_slots (hash lowering) _ _
  | _ => cases h

end Hash

section Cases

variable {R Key : Type} [LinearOrder Key] (lowering : Lowerings R Key)

/-- A value carrying one of the tokens told apart is told to be the case it carries. -/
theorem told_of_mem {which : Case} {leaves : List Case} (h : which ∈ leaves) :
    told lowering.token (lowering.token which) leaves = some which := by
  induction leaves with
  | nil => cases h
  | cons leaf leaves ih =>
    cases leaves with
    | nil =>
      rw [List.mem_singleton] at h
      rw [h]
      rfl
    | cons other leaves =>
      simp only [told, lowering.token_injective.eq_iff]
      split
      · next heq => rw [heq]
      · next hne => exact ih ((List.mem_cons.mp h).resolve_left hne)

/-- A value of a type that says its case is hashed and compared as the case it is. -/
theorem caseOf_eq {ty : Ty} {leaves : List Case} {which : Case} (hcased : ty.saysItsCase = true)
    (hleaves : lowering.declared.casesOf ty = some leaves) (hwhich : which ∈ leaves) :
    caseOf lowering ty which = some which := by
  cases ty with
  | ref named =>
    simp only [Declared.casesOf, Option.some.injEq] at hleaves
    subst hleaves
    cases named with
    | declared key =>
      simp only [caseOf]
      split
      · next cases hsum =>
        exact told_of_mem lowering ((lowering.declared.mem_leavesOf_sum hsum which).mp hwhich)
      · next hnot =>
        simp only [Declared.mem_leavesOf, List.mem_singleton, exists_eq_left, Declared.reached] at hwhich
        rw [hwhich]
    | primitive p => cases hcased
    | language case =>
      simp only [Declared.mem_leavesOf, List.mem_singleton, exists_eq_left, Declared.reached] at hwhich
      rw [hwhich]
      rfl
  | union members =>
    simp only [Declared.casesOf, Option.some.injEq] at hleaves
    subst hleaves
    exact told_of_mem lowering hwhich
  | _ => cases hcased

end Cases

end SoutherNative.Hashing
