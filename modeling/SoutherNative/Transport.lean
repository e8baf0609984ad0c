import Mathlib

set_option autoImplicit false

/-!
# Types and declarations

The types a document states, and what its declarations say of them: which cases a type descends to,
which types a value of another stands as, and which say their case by a token at the front.
-/
namespace SoutherNative.Transport

abbrev Lowered (α : Type) := Except String α

inductive Prim
  | int | string | bool | decimal | rational | date | time | dateTime | instant
  deriving DecidableEq

def Prim.spelt : Prim → String
  | .int => "Int"
  | .string => "String"
  | .bool => "Bool"
  | .decimal => "Decimal"
  | .rational => "Rational"
  | .date => "Date"
  | .time => "Time"
  | .dateTime => "DateTime"
  | .instant => "Instant"

inductive LanguageCase
  | some | none | divisionByZero | notANumber | notADate | notATime | notWhole | notAFiniteDecimal
  deriving DecidableEq

def LanguageCase.spelt : LanguageCase → String
  | .some => "Some"
  | .none => "None"
  | .divisionByZero => "DivisionByZero"
  | .notANumber => "NotANumber"
  | .notADate => "NotADate"
  | .notATime => "NotATime"
  | .notWhole => "NotWhole"
  | .notAFiniteDecimal => "NotAFiniteDecimal"

inductive Case
  | declared (declared : String)
  | primitive (prim : Prim)
  | language (case : LanguageCase)
  deriving DecidableEq

def Case.spelt : Case → String
  | .declared key => key
  | .primitive p => p.spelt
  | .language c => c.spelt

structure Cases where
  cases : List Case
  oneOrMore : cases ≠ []
  deriving DecidableEq

inductive Ty
  | prim (prim : Prim)
  | ref (named : Case)
  | union (union : Cases)
  | option (option : Ty)
  | tuple (tuple : List Ty)
  | fn (takes : List Ty) (answers : Ty)
  | list (list : Ty)
  | set (set : Ty)
  | map (key value : Ty)
  | var (var : ℕ)
  | nothing
  | never

namespace Ty

mutual

def decEq : (a b : Ty) → Decidable (a = b)
  | .prim a, b => match b with
    | .prim b => decidable_of_iff (a = b) (by simp)
    | .ref _ | .union _ | .option _ | .tuple _ | .fn _ _ | .list _ | .set _ | .map _ _ | .var _
    | .nothing | .never => isFalse (by simp)
  | .ref a, b => match b with
    | .ref b => decidable_of_iff (a = b) (by simp)
    | .prim _ | .union _ | .option _ | .tuple _ | .fn _ _ | .list _ | .set _ | .map _ _ | .var _
    | .nothing | .never => isFalse (by simp)
  | .union a, b => match b with
    | .union b => decidable_of_iff (a = b) (by simp)
    | .prim _ | .ref _ | .option _ | .tuple _ | .fn _ _ | .list _ | .set _ | .map _ _ | .var _
    | .nothing | .never => isFalse (by simp)
  | .option a, b => match b with
    | .option b => let _ := decEq a b; decidable_of_iff (a = b) (by simp)
    | .prim _ | .ref _ | .union _ | .tuple _ | .fn _ _ | .list _ | .set _ | .map _ _ | .var _
    | .nothing | .never => isFalse (by simp)
  | .tuple a, b => match b with
    | .tuple b => let _ := decEqs a b; decidable_of_iff (a = b) (by simp)
    | .prim _ | .ref _ | .union _ | .option _ | .fn _ _ | .list _ | .set _ | .map _ _ | .var _
    | .nothing | .never => isFalse (by simp)
  | .fn a c, b => match b with
    | .fn b d =>
      let _ := decEqs a b
      let _ := decEq c d
      decidable_of_iff (a = b ∧ c = d) (by simp)
    | .prim _ | .ref _ | .union _ | .option _ | .tuple _ | .list _ | .set _ | .map _ _ | .var _
    | .nothing | .never => isFalse (by simp)
  | .list a, b => match b with
    | .list b => let _ := decEq a b; decidable_of_iff (a = b) (by simp)
    | .prim _ | .ref _ | .union _ | .option _ | .tuple _ | .fn _ _ | .set _ | .map _ _ | .var _
    | .nothing | .never => isFalse (by simp)
  | .set a, b => match b with
    | .set b => let _ := decEq a b; decidable_of_iff (a = b) (by simp)
    | .prim _ | .ref _ | .union _ | .option _ | .tuple _ | .fn _ _ | .list _ | .map _ _ | .var _
    | .nothing | .never => isFalse (by simp)
  | .map a c, b => match b with
    | .map b d =>
      let _ := decEq a b
      let _ := decEq c d
      decidable_of_iff (a = b ∧ c = d) (by simp)
    | .prim _ | .ref _ | .union _ | .option _ | .tuple _ | .fn _ _ | .list _ | .set _ | .var _
    | .nothing | .never => isFalse (by simp)
  | .var a, b => match b with
    | .var b => decidable_of_iff (a = b) (by simp)
    | .prim _ | .ref _ | .union _ | .option _ | .tuple _ | .fn _ _ | .list _ | .set _ | .map _ _
    | .nothing | .never => isFalse (by simp)
  | .nothing, b => match b with
    | .nothing => isTrue rfl
    | .prim _ | .ref _ | .union _ | .option _ | .tuple _ | .fn _ _ | .list _ | .set _ | .map _ _
    | .var _ | .never => isFalse (by simp)
  | .never, b => match b with
    | .never => isTrue rfl
    | .prim _ | .ref _ | .union _ | .option _ | .tuple _ | .fn _ _ | .list _ | .set _ | .map _ _
    | .var _ | .nothing => isFalse (by simp)

def decEqs : (a b : List Ty) → Decidable (a = b)
  | [], [] => isTrue rfl
  | [], _ :: _ | _ :: _, [] => isFalse (by simp)
  | a :: as, b :: bs =>
    let _ := decEq a b
    let _ := decEqs as bs
    decidable_of_iff (a = b ∧ as = bs) (by simp)

end

instance : DecidableEq Ty := decEq

def hasNoValue : Ty → Bool
  | .nothing | .never => true
  | _ => false

def holdsNoValue : Ty → Bool
  | .option held | .list held | .set held => held.hasNoValue
  | .map key value => key.hasNoValue || value.hasNoValue
  | _ => false

def saysItsCase : Ty → Bool
  | .ref (.declared _) | .ref (.language _) | .union _ => true
  | _ => false

def spelt : Ty → String
  | .prim p => p.spelt
  | .ref named => named.spelt
  | .union members => " | ".intercalate (members.cases.map Case.spelt)
  | .option held => s!"an Option of {held.spelt}"
  | .tuple members => s!"a tuple of {members.length} members"
  | .fn takes answers =>
    "a function taking " ++ ", ".intercalate (takes.map spelt) ++ " and answering " ++
      answers.spelt
  | .list element => s!"a List of {element.spelt}"
  | .set member => s!"a Set of {member.spelt}"
  | .map key value => s!"a Map from {key.spelt} to {value.spelt}"
  | .var n => s!"the type variable {n}"
  | .nothing => "Nothing"
  | .never => "Never"

end Ty

inductive MapKey
  | text | date | time | dateTime | instant
  | namedKey (named : Case)
  deriving DecidableEq

def MapKey.ty : MapKey → Ty
  | .text => .prim .string
  | .date => .prim .date
  | .time => .prim .time
  | .dateTime => .prim .dateTime
  | .instant => .prim .instant
  | .namedKey named => .ref named

inductive CodecShape
  | scalar (scalar : Prim)
  | named (named : Case)
  | listOf (element : CodecShape)
  | setOf (element : CodecShape)
  | mapOf (key : MapKey) (value : CodecShape)
  | optionOf (present : CodecShape)
  deriving DecidableEq

def CodecShape.ty : CodecShape → Ty
  | .scalar p => .prim p
  | .named c => .ref c
  | .listOf element => .list element.ty
  | .setOf element => .set element.ty
  | .mapOf key value => .map key.ty value.ty
  | .optionOf present => .option present.ty

inductive Declaration
  | product (fields : List CodecShape)
  | newtype (field : CodecShape)
  | unit
  | sum (cases : Cases)

/-- The declarations of a document by their keys. `Coherent` held every declaration named to be one
    that crossed, and no case of a sum to be a sum. -/
structure Declared where
  laid : String → Declaration
  settled : ∀ key cases declared members, laid key = .sum cases →
    Case.declared declared ∈ cases.cases → laid declared ≠ .sum members

namespace Declared

variable (declared : Declared)

def reached (member : Case) : List Case :=
  match member with
  | .declared key =>
    match declared.laid key with
    | .sum cases => cases.cases
    | _ => [member]
  | _ => [member]

/-- The cases a value of any of `members` can be, each at the place it was first reached. -/
def leavesOf (members : List Case) : List Case :=
  members.foldl
    (fun leaves member => (declared.reached member).foldl
      (fun leaves leaf => if leaf ∈ leaves then leaves else leaves ++ [leaf]) leaves) []

theorem mem_foldl_leaves (reached leaves : List Case) (leaf : Case) :
    leaf ∈ reached.foldl (fun leaves it => if it ∈ leaves then leaves else leaves ++ [it]) leaves ↔
      leaf ∈ leaves ∨ leaf ∈ reached := by
  induction reached generalizing leaves with
  | nil => simp
  | cons it reached ih =>
    rw [List.foldl_cons, ih]
    by_cases hit : it ∈ leaves
    · rw [if_pos hit, List.mem_cons]
      constructor
      · tauto
      · rintro (h | rfl | h)
        · exact .inl h
        · exact .inl hit
        · exact .inr h
    · rw [if_neg hit]
      simp only [List.mem_append, List.mem_cons, List.not_mem_nil, or_false]
      tauto

theorem mem_leavesOf (members : List Case) (leaf : Case) :
    leaf ∈ declared.leavesOf members ↔ ∃ member ∈ members, leaf ∈ declared.reached member := by
  have hfold : ∀ leaves, leaf ∈ members.foldl
      (fun leaves member => (declared.reached member).foldl
        (fun leaves it => if it ∈ leaves then leaves else leaves ++ [it]) leaves) leaves ↔
      leaf ∈ leaves ∨ ∃ member ∈ members, leaf ∈ declared.reached member := by
    induction members with
    | nil => simp
    | cons member members ih =>
      intro leaves
      rw [List.foldl_cons, ih, mem_foldl_leaves]
      simp only [List.mem_cons, exists_eq_or_imp]
      tauto
  simpa [leavesOf] using hfold []

theorem reached_of_settled {key member : String} {cases : Cases}
    (h : declared.laid key = .sum cases) (hmember : Case.declared member ∈ cases.cases) :
    declared.reached (.declared member) = [.declared member] := by
  simp only [reached]
  split
  · next members hmembers => exact absurd hmembers (declared.settled key cases member members h hmember)
  · rfl

theorem reached_case {key : String} {cases : Cases} (h : declared.laid key = .sum cases)
    {member : Case} (hmember : member ∈ cases.cases) : declared.reached member = [member] := by
  cases member with
  | declared name => exact declared.reached_of_settled h hmember
  | primitive p => rfl
  | language case => rfl

/-- A sum descends to its own cases, named or listed. -/
theorem mem_leavesOf_sum {key : String} {cases : Cases} (h : declared.laid key = .sum cases)
    (leaf : Case) :
    leaf ∈ declared.leavesOf [.declared key] ↔ leaf ∈ declared.leavesOf cases.cases := by
  have hreached : declared.reached (.declared key) = cases.cases := by simp [reached, h]
  simp only [mem_leavesOf, List.mem_singleton, exists_eq_left, hreached]
  constructor
  · intro hleaf
    exact ⟨leaf, hleaf, by simp [declared.reached_case h hleaf]⟩
  · rintro ⟨member, hmember, hleaf⟩
    rw [declared.reached_case h hmember, List.mem_singleton] at hleaf
    rwa [hleaf]

/-- The cases a value of `ty` can be, where it is a type made of cases. -/
def casesOf : Ty → Option (List Case)
  | .ref named => some (declared.leavesOf [named])
  | .union union => some (declared.leavesOf union.cases)
  | .prim prim => some [.primitive prim]
  | _ => none

theorem sizeOf_zip {as bs : List Ty} {pair : Ty × Ty} (h : pair ∈ as.zip bs) :
    sizeOf pair.1 < sizeOf as ∧ sizeOf pair.2 < sizeOf bs :=
  ⟨List.sizeOf_lt_of_mem (List.of_mem_zip h).1, List.sizeOf_lt_of_mem (List.of_mem_zip h).2⟩

/-- Whether every value of `actual` is a value of `expected`, as the checker lets one stand as the
    other. A function is handed what the position takes, so each of those fits what it takes. -/
def fits (actual expected : Ty) : Bool :=
  if actual = expected then true
  else
    match actual, expected with
    | .nothing, _ | .never, _ => true
    | .option a, .option b | .list a, .list b | .set a, .set b => fits a b
    | .map k v, .map k' v' => fits k k' && fits v v'
    | .tuple as, .tuple bs =>
      as.length = bs.length && (as.zip bs).attach.all (fun pair => fits pair.1.1 pair.1.2)
    | .fn takes answers, .fn takes' answers' =>
      takes.length = takes'.length &&
        (takes'.zip takes).attach.all (fun pair => fits pair.1.1 pair.1.2) && fits answers answers'
    | a, b =>
      match declared.casesOf a, declared.casesOf b with
      | some a, some b => a.all (fun case => case ∈ b)
      | _, _ => false
termination_by sizeOf actual + sizeOf expected
decreasing_by
  all_goals simp only [Ty.option.sizeOf_spec, Ty.list.sizeOf_spec, Ty.set.sizeOf_spec,
    Ty.map.sizeOf_spec, Ty.tuple.sizeOf_spec, Ty.fn.sizeOf_spec]
  all_goals first
    | omega
    | (have hpair := sizeOf_zip pair.2; omega)

end Declared

end SoutherNative.Transport
