import SoutherNative.Reading
import SoutherNative.Comparing
import SoutherNative.HostSymbols

set_option autoImplicit false

/-!
# Values crossing to a host

The shape a value of a type crosses between a host and the object in, the words it is handed over as,
the rooms a host is handed it through, and what a set and a map are turned into and out of.
-/
namespace SoutherNative.Crossing
open Transport HashTrie Values Hashing Equality Restating Typing EqualHash Matching Widening Reading
open Comparing HostSymbols ValueCollection

inductive Direction
  | given
  | handed
  deriving DecidableEq

def Direction.turned : Direction → Direction
  | .given => .handed
  | .handed => .given

inductive Reason
  | noRepresentation
  | noDiscriminator
  | noValue
  deriving DecidableEq

inductive Step
  | option
  | member (place : ℕ)
  | element
  | takes (place : ℕ)
  | answers
  deriving DecidableEq

structure Refusal where
  reason : Reason
  path : List Step

def under (step : Step) (refusal : Refusal) : Refusal := ⟨refusal.reason, step :: refusal.path⟩

inductive Service
  | listBuilt (element : HostShape)
  | listRead (element : HostShape)
  | functionCalled (function : HostShape)
  | functionMade (function : HostShape)

/-- A value's crossing: the shape, and the functions a host reaches what is in it through. -/
structure Crossed where
  shape : HostShape
  services : List Service

mutual

/-- Whether a value of `ty` holds a set or a map where it is turned. -/
def holdsACollection : Ty → Bool
  | .set _ | .map _ _ => true
  | .option held | .list held => holdsACollection held
  | .tuple members => anyHoldsACollection members
  | _ => false

def anyHoldsACollection : List Ty → Bool
  | [] => false
  | ty :: types => holdsACollection ty || anyHoldsACollection types

end

mutual

/-- What a value of `ty` is to a host: every set in it a list of its members, and every map a list of
    pairs. -/
def formOf : Ty → Ty
  | .set member => .list (formOf member)
  | .map key value => .list (.tuple [formOf key, formOf value])
  | .option held => .option (formOf held)
  | .list element => .list (formOf element)
  | .tuple members => .tuple (formOfEach members)
  | other => other

def formOfEach : List Ty → List Ty
  | [] => []
  | ty :: types => formOf ty :: formOfEach types

end

mutual

def weight : Ty → ℕ
  | .set member => weight member + 2
  | .map key value => weight key + weight value + 5
  | .option held => weight held + 1
  | .list element => weight element + 1
  | .tuple members => weightEach members + 1
  | .fn takes answers => weightEach takes + weight answers + 1
  | .union _ => 1
  | _ => 0

def weightEach : List Ty → ℕ
  | [] => 0
  | ty :: types => weight ty + weightEach types + 1

end

mutual

theorem weight_formOf (ty : Ty) : weight (formOf ty) ≤ weight ty := by
  cases ty with
  | set member =>
    have := weight_formOf member
    simp only [formOf, weight]
    omega
  | map key value =>
    have := weight_formOf key
    have := weight_formOf value
    simp only [formOf, weight, weightEach]
    omega
  | option held =>
    have := weight_formOf held
    simp only [formOf, weight]
    omega
  | list element =>
    have := weight_formOf element
    simp only [formOf, weight]
    omega
  | tuple members =>
    have := weight_formOfEach members
    simp only [formOf, weight]
    omega
  | _ => exact le_refl _

theorem weight_formOfEach (types : List Ty) : weightEach (formOfEach types) ≤ weightEach types := by
  cases types with
  | nil => exact le_refl _
  | cons ty types =>
    have := weight_formOf ty
    have := weight_formOfEach types
    simp only [formOfEach, weightEach]
    omega

end

def leafOf : Prim → Option HostLeaf
  | .int => some .int
  | .bool => some .bool
  | .string => some .string
  | .decimal => some .decimal
  | .date => some .date
  | .time => some .time
  | .dateTime => some .dateTime
  | .instant => some .instant
  | .rational => none

def refused (reason : Reason) : Except Refusal Crossed := .error ⟨reason, []⟩

def plannedPrim (p : Prim) : Except Refusal Crossed :=
  match leafOf p with
  | some leaf => .ok ⟨.leaf leaf, []⟩
  | none => refused .noRepresentation

def plannedCases : List Case → Except Refusal Crossed
  | [] => .ok ⟨.leaf .value, []⟩
  | .primitive p :: cases => (plannedPrim p).bind fun _ => plannedCases cases
  | _ :: cases => plannedCases cases

mutual

/-- The shape a value of `ty` crosses in, and what each list and function value in it needs. -/
def planned (ty : Ty) (direction : Direction) : Except Refusal Crossed :=
  match ty with
  | .prim p => plannedPrim p
  | .ref (.declared _) => .ok ⟨.leaf .value, []⟩
  | .ref (.primitive _) | .ref (.language _) => refused .noRepresentation
  | .union union =>
    match direction with
    | .handed => refused .noDiscriminator
    | .given => plannedCases union.cases
  | .option held =>
    ((planned held direction).mapError (under .option)).map fun it =>
      ⟨.option it.shape, it.services⟩
  | .tuple members =>
    (plannedEach .member 0 members direction).map fun its =>
      ⟨.product (its.map Crossed.shape), its.flatMap Crossed.services⟩
  | .list element =>
    ((planned element direction).mapError (under .element)).map fun it =>
      let service := match direction with
        | .given => Service.listBuilt it.shape
        | .handed => Service.listRead it.shape
      ⟨.list it.shape, it.services ++ [service]⟩
  | .fn takes answers =>
    if anyHoldsACollection takes || holdsACollection answers then refused .noRepresentation
    else
      (plannedEach .takes 0 takes direction.turned).bind fun its =>
        ((planned answers direction).mapError (under .answers)).map fun it =>
          let shape := HostShape.function (its.map Crossed.shape) it.shape
          let service := match direction with
            | .handed => Service.functionCalled shape
            | .given => Service.functionMade shape
          ⟨shape, its.flatMap Crossed.services ++ it.services ++ [service]⟩
  | .set member => planned (formOf (.set member)) direction
  | .map key value => planned (formOf (.map key value)) direction
  | .var _ => refused .noRepresentation
  | .nothing | .never => refused .noValue
termination_by weight ty
decreasing_by
  all_goals simp only [weight, weightEach, formOf]
  all_goals first
    | omega
    | exact (have light := weight_formOf member; by omega)
    | exact (have light := weight_formOf key; have light' := weight_formOf value; by omega)

/-- Each of several types, the first at `place`. -/
def plannedEach (step : ℕ → Step) (place : ℕ) (types : List Ty) (direction : Direction) :
    Except Refusal (List Crossed) :=
  match types with
  | [] => .ok []
  | ty :: types =>
    ((planned ty direction).mapError (under (step place))).bind fun it =>
      (plannedEach step (place + 1) types direction).map (it :: ·)
termination_by weightEach types
decreasing_by
  all_goals simp only [weightEach]
  all_goals omega

end

/-- The shape a value of `ty` crosses between a host and the object in, or why it does not and where
    in `ty` that stands. -/
def crossing (ty : Ty) (direction : Direction) : Except Refusal Crossed := planned ty direction

inductive HostWord
  | int | bool | string | decimal | date | time | dateTime | instant | value | list | function
  deriving DecidableEq

def leafWord : HostLeaf → HostWord
  | .int => .int
  | .bool => .bool
  | .string => .string
  | .decimal => .decimal
  | .date => .date
  | .time => .time
  | .dateTime => .dateTime
  | .instant => .instant
  | .value => .value

mutual

def words : HostShape → List HostWord
  | .leaf leaf => [leafWord leaf]
  | .option present => .bool :: words present
  | .product members => wordsEach members
  | .list _ => [.list]
  | .function _ _ => [.function]

def wordsEach : List HostShape → List HostWord
  | [] => []
  | shape :: shapes => words shape ++ wordsEach shapes

end

section Words

variable {R : Type}

inductive Word (R : Type)
  | byte (byte : BitVec 8)
  | held (value : Val R)

def Word.is : HostWord → Word R → Prop
  | .bool, .byte _ => True
  | .bool, .held _ => False
  | _, .held _ => True
  | _, .byte _ => False

def zero : HostWord → Word R
  | .bool => .byte 0#8
  | _ => .held (.word 0#64)

def wordOf (shape : HostShape) (value : Val R) : Word R :=
  match shape with
  | .leaf .bool => .byte (value.bits.truncate 8)
  | _ => .held value

def ofWord (shape : HostShape) (word : Word R) : Option (Val R) :=
  match shape, word with
  | .leaf .bool, .byte byte => some (.word (if byte ≠ 0#8 then 1#64 else 0#64))
  | .leaf .bool, .held _ => none
  | _, .held value => some value
  | _, .byte _ => none

mutual

/-- A value crossing in `shape`, out of the words a host handed over for it and what follows them. -/
def take : HostShape → List (Word R) → Option (Val R × List (Word R))
  | .option present, .byte byte :: given =>
    let along := (words present).length
    if given.length < along then none
    else if byte ≠ 0#8 then
      (take present (given.take along)).map fun taken => (.held taken.1, given.drop along)
    else some (.absent, given.drop along)
  | .option _, _ => none
  | .product members, given =>
    (takeEach members given).map fun taken => (.members taken.1, taken.2)
  | shape, word :: given => (ofWord shape word).map fun value => (value, given)
  | _, [] => none

def takeEach : List HostShape → List (Word R) → Option (List (Val R) × List (Word R))
  | [], given => some ([], given)
  | shape :: shapes, given =>
    (take shape given).bind fun one =>
      (takeEach shapes one.2).map fun rest => (one.1 :: rest.1, rest.2)

end

mutual

/-- A value crossing in `shape` written as a host is handed it: what is then in the rooms. -/
def write : HostShape → Val R → List (Word R) → List (Word R)
  | .option present, .held value, _ :: rooms => .byte 1#8 :: write present value rooms
  | .option _, _, _ :: rooms => .byte 0#8 :: rooms
  | .option _, _, [] => []
  | .product members, .members values, rooms => writeEach members values rooms
  | .product _, _, rooms => rooms
  | shape, value, _ :: rooms => wordOf shape value :: rooms
  | _, _, [] => []

def writeEach : List HostShape → List (Val R) → List (Word R) → List (Word R)
  | shape :: shapes, value :: values, rooms =>
    let wide := (words shape).length
    write shape value (rooms.take wide) ++ writeEach shapes values (rooms.drop wide)
  | _, _, rooms => rooms

end

mutual

/-- A value crossing in `shape`, as the words a host is handed it in. -/
def wordsOf : HostShape → Val R → List (Word R)
  | .option present, .held value => .byte 1#8 :: wordsOf present value
  | .option present, _ => (words (.option present)).map zero
  | .product members, .members values => wordsOfEach members values
  | .product _, _ => []
  | shape, value => [wordOf shape value]

def wordsOfEach : List HostShape → List (Val R) → List (Word R)
  | shape :: shapes, value :: values => wordsOf shape value ++ wordsOfEach shapes values
  | _, _ => []

end

inductive HasShape : HostShape → Val R → Prop
  | bool (truth : Bool) : HasShape (.leaf .bool) (.word (if truth then 1#64 else 0#64))
  | leaf {leaf : HostLeaf} (value : Val R) : leaf ≠ .bool → HasShape (.leaf leaf) value
  | absent (present : HostShape) : HasShape (.option present) .absent
  | held {present : HostShape} {value : Val R} : HasShape present value →
      HasShape (.option present) (.held value)
  | members {shapes : List HostShape} {values : List (Val R)} : shapes.length = values.length →
      (∀ slot ∈ shapes.zip values, HasShape slot.1 slot.2) →
      HasShape (.product shapes) (.members values)
  | list (element : HostShape) (value : Val R) : HasShape (.list element) value
  | function (takes : List HostShape) (answers : HostShape) (value : Val R) :
      HasShape (.function takes answers) value

mutual

/-- What is written through each room a value of a shape crosses through: nothing where an optional
    round it holds none. -/
def fills : HostShape → Val R → List (Option (Word R))
  | .option present, .held value => some (.byte 1#8) :: fills present value
  | .option present, _ => some (.byte 0#8) :: (words present).map fun _ => none
  | .product members, .members values => fillsEach members values
  | .product _, _ => []
  | shape, value => [some (wordOf shape value)]

def fillsEach : List HostShape → List (Val R) → List (Option (Word R))
  | shape :: shapes, value :: values => fills shape value ++ fillsEach shapes values
  | _, _ => []

end

def filled (fills : List (Option (Word R))) (rooms : List (Word R)) : List (Word R) :=
  fills.zipWith (fun fill room => fill.getD room) rooms

structure Crosses (shape : HostShape) (value : Val R) : Prop where
  words : List.Forall₂ Word.is (words shape) (wordsOf shape value)
  fills : (fills shape value).length = (Crossing.words shape).length
  wordsOf : wordsOf shape value =
    List.zipWith (fun fill word => fill.getD (zero word)) (Crossing.fills shape value)
      (Crossing.words shape)
  write : ∀ rooms, (Crossing.words shape).length ≤ rooms.length → write shape value rooms =
    filled (Crossing.fills shape value) rooms ++ rooms.drop (Crossing.words shape).length
  take : ∀ given rest, given.length = (Crossing.words shape).length →
    (∀ slot ∈ (Crossing.fills shape value).zip given, ∀ word, slot.1 = some word → slot.2 = word) →
    take shape (given ++ rest) = some (value, rest)

end Words

section Shapes

variable {R : Type}

def Agree (fills : List (Option (Word R))) (given : List (Word R)) : Prop :=
  ∀ slot ∈ fills.zip given, ∀ word, slot.1 = some word → slot.2 = word

theorem Agree.head {word : Word R} {fills : List (Option (Word R))} {given : List (Word R)}
    (h : Agree (some word :: fills) given) (hlen : given.length = fills.length + 1) :
    ∃ after, given = word :: after ∧ after.length = fills.length ∧ Agree fills after := by
  cases given with
  | nil => cases hlen
  | cons first after =>
    have hfirst := h (some word, first) List.mem_cons_self word rfl
    refine ⟨after, by rw [← hfirst], Nat.succ.inj hlen, fun slot hslot => ?_⟩
    exact h slot (List.mem_cons_of_mem _ hslot)

theorem Agree.append {fills fills' : List (Option (Word R))} {given : List (Word R)}
    (h : Agree (fills ++ fills') given) (hlen : given.length = fills.length + fills'.length) :
    ∃ one other, given = one ++ other ∧ one.length = fills.length ∧ other.length = fills'.length ∧
      Agree fills one ∧ Agree fills' other := by
  have hone : (given.take fills.length).length = fills.length := by
    rw [List.length_take, hlen]
    omega
  have hzip : (fills ++ fills').zip given =
      fills.zip (given.take fills.length) ++ fills'.zip (given.drop fills.length) := by
    conv_lhs => rw [← List.take_append_drop fills.length given]
    exact List.zip_append hone.symm
  refine ⟨given.take fills.length, given.drop fills.length, (List.take_append_drop _ _).symm, hone,
    by rw [List.length_drop, hlen]; omega, fun slot hslot => ?_, fun slot hslot => ?_⟩
  · exact h slot (by rw [hzip]; exact List.mem_append_left _ hslot)
  · exact h slot (by rw [hzip]; exact List.mem_append_right _ hslot)

theorem agree_wordsOf (fills : List (Option (Word R))) (kinds : List HostWord) :
    Agree fills (fills.zipWith (fun fill kind => fill.getD (zero kind)) kinds) := by
  induction fills generalizing kinds with
  | nil => exact fun slot hslot => by cases hslot
  | cons fill fills ih =>
    cases kinds with
    | nil => exact fun slot hslot => by cases hslot
    | cons kind kinds =>
      intro slot hslot word hword
      rcases List.mem_cons.mp hslot with rfl | hslot
      · simp only at hword
        simp [hword]
      · exact ih kinds slot hslot word hword

theorem agree_filled (fills : List (Option (Word R))) (rooms : List (Word R)) :
    Agree fills (filled fills rooms) := by
  induction fills generalizing rooms with
  | nil => exact fun slot hslot => by cases hslot
  | cons fill fills ih =>
    cases rooms with
    | nil => exact fun slot hslot => by cases hslot
    | cons room rooms =>
      intro slot hslot word hword
      rcases List.mem_cons.mp hslot with rfl | hslot
      · simp only at hword
        simp [hword]
      · exact ih rooms slot hslot word hword

theorem filled_append {fills fills' : List (Option (Word R))} {rooms : List (Word R)}
    (hlen : fills.length ≤ rooms.length) :
    filled (fills ++ fills') rooms =
      filled fills (rooms.take fills.length) ++ filled fills' (rooms.drop fills.length) := by
  conv_lhs => rw [← List.take_append_drop fills.length rooms]
  rw [filled, List.zipWith_append]
  · rfl
  · rw [List.length_take]
    omega

theorem filled_none {A : Type} (kinds : List A) (rooms : List (Word R)) :
    filled (kinds.map fun _ => none) rooms = rooms.take kinds.length := by
  induction kinds generalizing rooms with
  | nil => rfl
  | cons kind kinds ih =>
    cases rooms with
    | nil => rfl
    | cons room rooms => exact congrArg (room :: ·) (ih rooms)

theorem crosses_one {shape : HostShape} {value : Val R} {kind : HostWord}
    (hwords : words shape = [kind]) (hof : wordsOf shape value = [wordOf shape value])
    (hfills : fills shape value = [some (wordOf shape value)])
    (hwrite : ∀ (room : Word R) rooms, write shape value (room :: rooms) = wordOf shape value :: rooms)
    (htake : ∀ (word : Word R) given, take shape (word :: given) =
      (ofWord shape word).map fun value => (value, given))
    (his : (wordOf shape value).is kind) (hback : ofWord shape (wordOf shape value) = some value) :
    Crosses shape value := by
  constructor
  · rw [hwords, hof]
    exact .cons his .nil
  · rw [hfills, hwords]
    rfl
  · rw [hof, hfills, hwords]
    rfl
  · intro rooms hlen
    rw [hwords] at hlen ⊢
    cases rooms with
    | nil => cases hlen
    | cons room rooms =>
      rw [hwrite, hfills]
      rfl
  · intro given rest hlen hagree
    rw [hwords] at hlen
    rw [hfills] at hagree
    obtain ⟨after, rfl, hafter, -⟩ := Agree.head hagree hlen
    rw [List.length_eq_zero_iff.mp hafter, List.cons_append, htake, hback]
    rfl

theorem zero_is (kind : HostWord) : (zero kind : Word R).is kind := by
  cases kind <;> trivial

theorem crosses_absent (present : HostShape) :
    Crosses (.option present) (.absent : Val R) := by
  constructor
  · change List.Forall₂ Word.is (words (.option present)) ((words (.option present)).map zero)
    rw [List.forall₂_map_right_iff]
    exact List.forall₂_same.mpr fun kind _ => zero_is kind
  · simp [fills, words]
  · change (words (.option present)).map zero = _
    rw [words, fills, List.map_cons, List.zipWith_cons_cons, List.zipWith_map_left]
    · simp [zero]
    · simp
  · intro rooms hlen
    cases rooms with
    | nil => simp [words] at hlen
    | cons room rooms =>
      have hfilled : filled (some (.byte 0#8) :: (words present).map fun _ => none)
          (room :: rooms) = .byte 0#8 :: rooms.take (words present).length := by
        rw [← filled_none]
        rfl
      rw [write, fills, hfilled, words, List.length_cons, List.drop_succ_cons, List.cons_append,
        List.take_append_drop]
      · simp
      · simp
  · intro given rest hlen hagree
    obtain ⟨after, rfl, hafter, -⟩ := Agree.head hagree (by simpa [words] using hlen)
    rw [List.length_map] at hafter
    rw [List.cons_append, take, if_neg (by simp [hafter]), if_neg (by simp), ← hafter,
      List.drop_left]

theorem crosses_held {present : HostShape} {value : Val R} (h : Crosses present value) :
    Crosses (.option present) (.held value) := by
  constructor
  · exact .cons trivial h.words
  · rw [fills, words, List.length_cons, List.length_cons, h.fills]
  · rw [wordsOf, fills, words, h.wordsOf]
    rfl
  · intro rooms hlen
    cases rooms with
    | nil => simp [words] at hlen
    | cons room rooms =>
      rw [words, List.length_cons, List.length_cons, Nat.add_le_add_iff_right] at hlen
      rw [write, h.write rooms hlen]
      rfl
  · intro given rest hlen hagree
    obtain ⟨after, rfl, hafter, hrest⟩ :=
      Agree.head hagree (by rw [hlen, words, List.length_cons, h.fills])
    rw [h.fills] at hafter
    rw [List.cons_append, take, if_neg (by simp [hafter]), if_pos (by decide), ← hafter,
      List.take_left, List.drop_left]
    have htake := h.take after [] hafter hrest
    rw [List.append_nil] at htake
    rw [htake]
    rfl

structure CrossesEach (shapes : List HostShape) (values : List (Val R)) : Prop where
  words : List.Forall₂ Word.is (wordsEach shapes) (wordsOfEach shapes values)
  fills : (fillsEach shapes values).length = (wordsEach shapes).length
  wordsOf : wordsOfEach shapes values =
    List.zipWith (fun fill word => fill.getD (zero word)) (fillsEach shapes values)
      (wordsEach shapes)
  write : ∀ rooms, (wordsEach shapes).length ≤ rooms.length → writeEach shapes values rooms =
    filled (fillsEach shapes values) rooms ++ rooms.drop (wordsEach shapes).length
  take : ∀ given rest, given.length = (wordsEach shapes).length →
    Agree (fillsEach shapes values) given →
    takeEach shapes (given ++ rest) = some (values, rest)

theorem crossesEach_cons {shape : HostShape} {shapes : List HostShape} {value : Val R}
    {values : List (Val R)} (hone : Crosses shape value) (hrest : CrossesEach shapes values) :
    CrossesEach (shape :: shapes) (value :: values) := by
  constructor
  · exact List.rel_append hone.words hrest.words
  · rw [fillsEach, wordsEach, List.length_append, List.length_append, hone.fills, hrest.fills]
  · rw [wordsOfEach, fillsEach, wordsEach, List.zipWith_append hone.fills, ← hone.wordsOf,
      ← hrest.wordsOf]
  · intro rooms hlen
    rw [wordsEach, List.length_append] at hlen
    have htake : (rooms.take (Crossing.words shape).length).length =
        (Crossing.words shape).length := by
      rw [List.length_take]
      omega
    have hdrop : (wordsEach shapes).length ≤ (rooms.drop (Crossing.words shape).length).length := by
      rw [List.length_drop]
      omega
    rw [writeEach, hone.write _ htake.ge, hrest.write _ hdrop, fillsEach,
      filled_append (by rw [hone.fills]; omega), hone.fills, wordsEach, List.length_append,
      List.drop_drop, List.drop_eq_nil_of_le htake.le, List.append_nil, List.append_assoc]
  · intro given rest hlen hagree
    rw [wordsEach, List.length_append] at hlen
    obtain ⟨one, other, rfl, hone', hother', hagree', hagree''⟩ :=
      Agree.append hagree (by rw [hlen, hone.fills, hrest.fills])
    rw [takeEach, List.append_assoc, hone.take one _ (hone'.trans hone.fills) hagree',
      Option.bind_some, hrest.take other _ (hother'.trans hrest.fills) hagree'']
    rfl

theorem crossesEach_of {shapes : List HostShape} {values : List (Val R)}
    (hlen : shapes.length = values.length)
    (h : ∀ slot ∈ shapes.zip values, Crosses slot.1 slot.2) : CrossesEach shapes values := by
  induction shapes generalizing values with
  | nil =>
    obtain rfl := List.length_eq_zero_iff.mp hlen.symm
    refine ⟨.nil, rfl, rfl, fun rooms _ => rfl, fun given rest hlen _ => ?_⟩
    rw [List.length_eq_zero_iff.mp hlen]
    rfl
  | cons shape shapes ih =>
    cases values with
    | nil => cases hlen
    | cons value values =>
      refine crossesEach_cons (h (shape, value) List.mem_cons_self) (ih (Nat.succ.inj hlen) ?_)
      exact fun slot hslot => h slot (List.mem_cons_of_mem _ hslot)

theorem crosses_members {shapes : List HostShape} {values : List (Val R)}
    (h : CrossesEach shapes values) : Crosses (.product shapes) (.members values) := by
  constructor
  · exact h.words
  · exact h.fills
  · exact h.wordsOf
  · intro rooms hlen
    rw [write]
    exact h.write rooms hlen
  · intro given rest hlen hagree
    rw [take, h.take given rest hlen hagree]
    rfl

/-- A value of a shape crosses in it. -/
theorem crosses {shape : HostShape} {value : Val R} (h : HasShape shape value) :
    Crosses shape value := by
  induction h with
  | bool truth =>
    refine crosses_one rfl rfl rfl (fun _ _ => rfl) (fun _ _ => rfl) trivial ?_
    cases truth <;> rfl
  | @leaf leaf value hbool =>
    cases leaf <;> first
      | contradiction
      | exact crosses_one rfl rfl rfl (fun _ _ => rfl) (fun _ _ => rfl) trivial rfl
  | absent present => exact crosses_absent present
  | held _ ih => exact crosses_held ih
  | members hlen _ ih => exact crosses_members (crossesEach_of hlen ih)
  | list element value =>
    exact crosses_one rfl rfl rfl (fun _ _ => rfl) (fun _ _ => rfl) trivial rfl
  | function takes answers value =>
    exact crosses_one rfl rfl rfl (fun _ _ => rfl) (fun _ _ => rfl) trivial rfl

end Shapes

section Planned

theorem of_mapError {ε ε' α : Type} {x : Except ε α} {f : ε → ε'} {a : α}
    (h : x.mapError f = .ok a) : x = .ok a := by
  cases x with
  | error e => cases h
  | ok b => exact congrArg _ (Except.ok.inj h)

theorem plannedCases_shape {cases : List Case} {crossed : Crossed}
    (h : plannedCases cases = .ok crossed) : crossed.shape = .leaf .value := by
  induction cases with
  | nil =>
    cases h
    rfl
  | cons case cases ih =>
    cases case with
    | primitive p =>
      rw [plannedCases] at h
      obtain ⟨-, -, h⟩ := of_bind h
      exact ih h
    | declared key | language case => exact ih h

theorem planned_shape (ty : Ty) {d d' : Direction} {c c' : Crossed} (h : planned ty d = .ok c)
    (h' : planned ty d' = .ok c') : c.shape = c'.shape := by
  induction hn : weight ty using Nat.strong_induction_on generalizing ty d d' c c' with
  | _ n ih =>
    subst hn
    have heach : ∀ {step : ℕ → Step} {types : List Ty} {at_ : ℕ} {e e' : Direction}
        {its its' : List Crossed}, weightEach types < weight ty →
        plannedEach step at_ types e = .ok its → plannedEach step at_ types e' = .ok its' →
        its.map Crossed.shape = its'.map Crossed.shape := by
      intro step types
      induction types with
      | nil =>
        intro at_ e e' its its' _ hits hits'
        rw [plannedEach] at hits hits'
        cases hits
        cases hits'
        rfl
      | cons first types ihtypes =>
        intro at_ e e' its its' hlt hits hits'
        rw [plannedEach] at hits hits'
        rw [weightEach] at hlt
        obtain ⟨it, hit, hits⟩ := of_bind hits
        obtain ⟨rest, hrest, rfl⟩ := of_map hits
        obtain ⟨it', hit', hits'⟩ := of_bind hits'
        obtain ⟨rest', hrest', rfl⟩ := of_map hits'
        rw [List.map_cons, List.map_cons,
          ih _ (by omega) first (of_mapError hit) (of_mapError hit') rfl,
          ihtypes (by omega) hrest hrest']
    cases ty with
    | prim p =>
      rw [planned] at h h'
      rw [h, Except.ok.injEq] at h'
      rw [h']
    | ref named =>
      cases named with
      | declared key =>
        rw [planned] at h h'
        cases h
        cases h'
        rfl
      | primitive p | language case =>
        rw [planned] at h
        cases h
    | union members =>
      cases d with
      | handed =>
        rw [planned] at h
        cases h
      | given =>
        cases d' with
        | handed =>
          rw [planned] at h'
          cases h'
        | given =>
          rw [h, Except.ok.injEq] at h'
          rw [h']
    | option held =>
      rw [planned] at h h'
      obtain ⟨it, hit, rfl⟩ := of_map h
      obtain ⟨it', hit', rfl⟩ := of_map h'
      exact congrArg HostShape.option (ih _ (by simp [weight]) held (of_mapError hit) (of_mapError hit') rfl)
    | tuple members =>
      rw [planned] at h h'
      obtain ⟨its, hits, rfl⟩ := of_map h
      obtain ⟨its', hits', rfl⟩ := of_map h'
      exact congrArg HostShape.product (heach (by simp [weight]) hits hits')
    | list element =>
      rw [planned] at h h'
      obtain ⟨it, hit, rfl⟩ := of_map h
      obtain ⟨it', hit', rfl⟩ := of_map h'
      exact congrArg HostShape.list (ih _ (by simp [weight]) element (of_mapError hit) (of_mapError hit') rfl)
    | fn takes answers =>
      rw [planned] at h h'
      split_ifs at h h'
      · cases h
      · obtain ⟨its, hits, h⟩ := of_bind h
        obtain ⟨it, hit, rfl⟩ := of_map h
        obtain ⟨its', hits', h'⟩ := of_bind h'
        obtain ⟨it', hit', rfl⟩ := of_map h'
        change HostShape.function _ _ = HostShape.function _ _
        rw [heach (by simp only [weight]; omega) hits hits',
          ih _ (by simp only [weight]; omega) answers (of_mapError hit) (of_mapError hit') rfl]
    | set member =>
      have := weight_formOf member
      rw [planned] at h h'
      exact ih _ (by simp only [formOf, weight]; omega) _ h h' rfl
    | map key value =>
      have := weight_formOf key
      have := weight_formOf value
      rw [planned] at h h'
      exact ih _ (by simp only [formOf, weight, weightEach]; omega) _ h h' rfl
    | var n | nothing | never =>
      rw [planned] at h
      cases h

variable {R Key : Type} [LinearOrder Key] {lowering : Lowerings R Key}

theorem hasShape_of {ty : Ty} {direction : Direction} {crossed : Crossed}
    (h : planned ty direction = .ok crossed) {value : Val R}
    (hvalue : HasType lowering (formOf ty) value) : HasShape crossed.shape value := by
  induction hn : weight ty using Nat.strong_induction_on
    generalizing ty direction crossed value with
  | _ n ih =>
    subst hn
    cases ty with
    | prim p =>
      rw [planned, plannedPrim] at h
      cases p <;> cases h <;> first
        | exact .leaf value (by decide)
        | skip
      cases hvalue with
      | bool truth => exact .bool truth
      | amount _ kept _ hbool => exact absurd rfl hbool
      | tagged hcased => cases hcased
    | ref named =>
      cases named with
      | declared key =>
        rw [planned] at h
        cases h
        exact .leaf value (by decide)
      | primitive p | language case =>
        rw [planned] at h
        cases h
    | union members =>
      cases direction with
      | handed =>
        rw [planned] at h
        cases h
      | given =>
        rw [planned] at h
        rw [plannedCases_shape h]
        exact .leaf value (by decide)
    | option held =>
      rw [planned] at h
      obtain ⟨it, hit, rfl⟩ := of_map h
      rw [formOf] at hvalue
      obtain rfl | ⟨inner, rfl, hinner⟩ := hvalue.option_inv
      · exact .absent it.shape
      · exact .held (ih _ (by simp [weight]) (of_mapError hit) hinner rfl)
    | tuple members =>
      rw [planned] at h
      obtain ⟨its, hits, rfl⟩ := of_map h
      rw [formOf] at hvalue
      obtain ⟨values, rfl, hvalues⟩ := hvalue.tuple_inv
      have heach : ∀ {types : List Ty} {at_ : ℕ} {its : List Crossed} {values : List (Val R)},
          weightEach types < weight (.tuple members) →
          plannedEach .member at_ types direction = .ok its →
          HasTypes lowering (formOfEach types) values →
          List.Forall₂ HasShape (its.map Crossed.shape) values := by
        intro types
        induction types with
        | nil =>
          intro at_ its values _ hits hvalues
          rw [plannedEach] at hits
          cases hits
          cases hvalues
          exact .nil
        | cons first types ihtypes =>
          intro at_ its values hlt hits hvalues
          rw [plannedEach] at hits
          rw [weightEach] at hlt
          obtain ⟨it, hit, hits⟩ := of_bind hits
          obtain ⟨rest, hrest, rfl⟩ := of_map hits
          cases hvalues with
          | cons hone hvalues =>
            exact .cons (ih _ (by omega) (of_mapError hit) hone rfl)
              (ihtypes (by omega) hrest hvalues)
      have hshapes := List.forall₂_iff_zip.mp (heach (by simp [weight]) hits hvalues)
      exact .members hshapes.1 fun slot hslot => hshapes.2 hslot
    | list element =>
      rw [planned] at h
      obtain ⟨it, -, rfl⟩ := of_map h
      exact .list it.shape value
    | fn takes answers =>
      rw [planned] at h
      split_ifs at h
      · cases h
      · obtain ⟨its, -, h⟩ := of_bind h
        obtain ⟨it, -, rfl⟩ := of_map h
        exact .function _ _ value
    | set member =>
      rw [planned, formOf, planned] at h
      obtain ⟨it, -, rfl⟩ := of_map h
      exact .list it.shape value
    | map key held =>
      rw [planned, formOf, planned] at h
      obtain ⟨it, -, rfl⟩ := of_map h
      exact .list it.shape value
    | var n | nothing | never =>
      rw [planned] at h
      cases h

end Planned

inductive Way
  | toHost
  | fromHost

section Turning

variable {R Key : Type} [LinearOrder Key] (lowering : Lowerings R Key)

/-- A list of `element`s, each element turned. -/
def turnedList (element : Ty) (one : Val R → Val R) (elements : List (Val R)) : List (Val R) :=
  if holdsACollection element then elements.map one else elements

def pairsOf (pairs : List (Val R)) : List (Val R × Val R) :=
  pairs.filterMap fun
    | .members [key, value] => some (key, value)
    | _ => none

mutual

/-- A value of `ty` turned into its host's form, or out of it. -/
def turned (way : Way) (ty : Ty) (value : Val R) : Val R :=
  if holdsACollection ty then
    match way, ty, value with
    | .toHost, .set member, .set entries =>
      .list (turnedList member (fun it => turned .toHost member it) (entries.map Entry.key))
    | .fromHost, .set member, .list elements =>
      .set (setFromList lowering member
        (turnedList member (fun it => turned .fromHost member it) elements))
    | .toHost, .map key held, .map entries =>
      .list (turnedList (.tuple [key, held]) (fun it => turned .toHost (.tuple [key, held]) it)
        (entries.map fun entry => .members [entry.key, entry.value]))
    | .fromHost, .map key held, .list pairs =>
      .map (mapFromList lowering key (pairsOf
        (turnedList (.tuple [key, held]) (fun it => turned .fromHost (.tuple [key, held]) it) pairs)))
    | way, .option held, .held value => .held (turned way held value)
    | way, .tuple members, .members values => .members (turnedEach way members values)
    | way, .list element, .list elements =>
      .list (turnedList element (fun it => turned way element it) elements)
    | _, _, value => value
  else value
termination_by weight ty
decreasing_by
  all_goals simp only [weight, weightEach]
  all_goals omega

def turnedEach (way : Way) (types : List Ty) (values : List (Val R)) : List (Val R) :=
  match types, values with
  | ty :: types, value :: values => turned way ty value :: turnedEach way types values
  | _, values => values
termination_by weightEach types
decreasing_by
  all_goals simp only [weightEach]
  all_goals omega

end

/-- `Turning::handed`: a value as a host is handed it. -/
def handed (ty : Ty) (value : Val R) : Val R := turned lowering .toHost ty value

/-- `Turning::taken`: a value in its host's form, as the model holds it. -/
def taken (ty : Ty) (value : Val R) : Val R := turned lowering .fromHost ty value

variable {lowering}

theorem turned_eq {way : Way} {ty : Ty} (h : holdsACollection ty = false) (value : Val R) :
    turned lowering way ty value = value := by
  unfold turned
  rw [if_neg (by simp [h])]

theorem turnedList_eq (way : Way) (element : Ty) (elements : List (Val R)) :
    turnedList element (fun it => turned lowering way element it) elements =
      elements.map (turned lowering way element) := by
  unfold turnedList
  split_ifs with h
  · rfl
  · rw [Bool.not_eq_true] at h
    rw [List.map_congr_left fun it _ => turned_eq h it, List.map_id']

theorem turned_set_toHost (member : Ty) (entries : List (Entry (Val R) Int64)) :
    turned lowering .toHost (.set member) (.set entries) =
      .list ((entries.map Entry.key).map (turned lowering .toHost member)) := by
  rw [turned, holdsACollection, if_pos rfl, turnedList_eq]

theorem turned_set_fromHost (member : Ty) (elements : List (Val R)) :
    turned lowering .fromHost (.set member) (.list elements) =
      .set (setFromList lowering member (elements.map (turned lowering .fromHost member))) := by
  rw [turned, holdsACollection, if_pos rfl, turnedList_eq]

theorem turnedEach_eq {way : Way} {types : List Ty} (h : anyHoldsACollection types = false)
    (values : List (Val R)) : turnedEach lowering way types values = values := by
  induction types generalizing values with
  | nil =>
    rw [turnedEach]
    simp
  | cons ty types ih =>
    rw [anyHoldsACollection, Bool.or_eq_false_iff] at h
    cases values with
    | nil =>
      rw [turnedEach]
      simp
    | cons value values => rw [turnedEach, turned_eq h.1, ih h.2]

theorem turned_tuple (way : Way) (types : List Ty) (values : List (Val R)) :
    turned lowering way (.tuple types) (.members values) =
      .members (turnedEach lowering way types values) := by
  cases h : holdsACollection (.tuple types) with
  | true => rw [turned, if_pos h]
  | false =>
    rw [turned_eq h]
    rw [holdsACollection] at h
    rw [turnedEach_eq h]

theorem turned_pair (way : Way) (key held : Ty) (k v : Val R) :
    turned lowering way (.tuple [key, held]) (.members [k, v]) =
      .members [turned lowering way key k, turned lowering way held v] := by
  rw [turned_tuple, turnedEach, turnedEach, turnedEach]
  simp

theorem turned_list (way : Way) (element : Ty) (elements : List (Val R)) :
    turned lowering way (.list element) (.list elements) =
      .list (elements.map (turned lowering way element)) := by
  cases h : holdsACollection (.list element) with
  | true => rw [turned, if_pos h, turnedList_eq]
  | false =>
    rw [turned_eq h]
    rw [holdsACollection] at h
    rw [List.map_congr_left fun it _ => turned_eq h it, List.map_id']

theorem turned_absent (way : Way) (held : Ty) :
    turned lowering way (.option held) (.absent : Val R) = .absent := by
  cases h : holdsACollection (.option held) with
  | true =>
    unfold turned
    rw [if_pos h]
    cases way <;> rfl
  | false => rw [turned_eq h]

theorem turned_held (way : Way) (held : Ty) (value : Val R) :
    turned lowering way (.option held) (.held value) = .held (turned lowering way held value) := by
  cases h : holdsACollection (.option held) with
  | true => rw [turned, if_pos h]
  | false =>
    rw [turned_eq h]
    rw [holdsACollection] at h
    rw [turned_eq h]

theorem turned_map_toHost (key held : Ty) (entries : List (Entry (Val R) (Val R))) :
    turned lowering .toHost (.map key held) (.map entries) =
      .list (entries.map fun entry => .members [turned lowering .toHost key entry.key,
        turned lowering .toHost held entry.value]) := by
  rw [turned, holdsACollection, if_pos rfl, turnedList_eq, List.map_map]
  refine congrArg Val.list (List.map_congr_left fun entry _ => ?_)
  exact turned_pair .toHost key held entry.key entry.value

theorem turned_map_fromHost (key held : Ty) (pairs : List (Val R × Val R)) :
    turned lowering .fromHost (.map key held) (.list (pairs.map fun it => .members [it.1, it.2])) =
      .map (mapFromList lowering key (pairs.map fun it =>
        (turned lowering .fromHost key it.1, turned lowering .fromHost held it.2))) := by
  rw [turned, holdsACollection, if_pos rfl, turnedList_eq, List.map_map]
  refine congrArg (fun them => Val.map (mapFromList lowering key them)) ?_
  rw [pairsOf, List.filterMap_map, ← List.filterMap_eq_map]
  refine List.filterMap_congr fun pair _ => ?_
  change (match turned lowering .fromHost (.tuple [key, held]) (.members [pair.1, pair.2]) with
    | .members [key, value] => some (key, value)
    | _ => none) = _
  rw [turned_pair]
  rfl

def back (lowering : Lowerings R Key) (ty : Ty) (value : Val R) : Val R :=
  taken lowering ty (handed lowering ty value)

end Turning

section Back

variable {R Key : Type} [LinearOrder Key] {lowering : Lowerings R Key}

structure Turns (lowering : Lowerings R Key) (ty : Ty) : Prop where
  form : ∀ value, HasType lowering ty value →
    HasType lowering (formOf ty) (handed lowering ty value)
  typed : ∀ value, HasType lowering ty value → HasType lowering ty (back lowering ty value)
  equal : ∀ value other, HasType lowering ty value → HasType lowering ty other →
    Equality.equal lowering ty (back lowering ty value) other =
      Equality.equal lowering ty value other
  hash : ∀ value, HasType lowering ty value →
    Hashing.hash lowering ty (back lowering ty value) = Hashing.hash lowering ty value
  reads : ∀ value, HasType lowering ty value → ∀ meaning,
    Reads lowering.declared ty (back lowering ty value) meaning ↔
      Reads lowering.declared ty value meaning

theorem equal_swap {ty : Ty} {a b : Val R} (ha : HasType lowering ty a) (hb : HasType lowering ty b) :
    Equality.equal lowering ty a b = Equality.equal lowering ty b a := by
  rw [Bool.eq_iff_iff]
  exact ⟨equal_symm ha hb, equal_symm hb ha⟩

theorem Turns.equal_both {ty : Ty} (h : Turns lowering ty) {a b : Val R}
    (ha : HasType lowering ty a) (hb : HasType lowering ty b) :
    Equality.equal lowering ty (back lowering ty a) (back lowering ty b) =
      Equality.equal lowering ty a b := by
  rw [h.equal a _ ha (h.typed b hb), equal_swap ha (h.typed b hb), h.equal b a hb ha,
    equal_swap hb ha]

theorem Turns.equal_right {ty : Ty} (h : Turns lowering ty) {a b : Val R}
    (ha : HasType lowering ty a) (hb : HasType lowering ty b) :
    Equality.equal lowering ty b (back lowering ty a) = Equality.equal lowering ty b a := by
  rw [equal_swap hb (h.typed a ha), h.equal a b ha hb, equal_swap ha hb]

mutual

theorem formOf_eq {ty : Ty} (h : holdsACollection ty = false) : formOf ty = ty := by
  cases ty with
  | set | map => cases h
  | option held | list held => rw [formOf, @formOf_eq held h]
  | tuple members => rw [formOf, @formOfEach_eq members h]
  | _ => rfl

theorem formOfEach_eq {types : List Ty} (h : anyHoldsACollection types = false) :
    formOfEach types = types := by
  cases types with
  | nil => rfl
  | cons ty types =>
    rw [anyHoldsACollection, Bool.or_eq_false_iff] at h
    rw [formOfEach, formOf_eq h.1, formOfEach_eq h.2]

end

theorem turns_unheld {ty : Ty} (h : holdsACollection ty = false) : Turns lowering ty := by
  have hback (value : Val R) : back lowering ty value = value := by
    rw [back, handed, taken, turned_eq h, turned_eq h]
  constructor
  · intro value hvalue
    rwa [formOf_eq h, handed, turned_eq h]
  · intro value hvalue
    rwa [hback]
  · intro value other _ _
    rw [hback]
  · intro value _
    rw [hback]
  · intro value _ meaning
    rw [hback]

theorem turns_option {held : Ty} (h : Turns lowering held) : Turns lowering (.option held) := by
  have habsent : back lowering (.option held) .absent = .absent := by
    rw [back, handed, taken, turned_absent, turned_absent]
  have hheld (value : Val R) :
      back lowering (.option held) (.held value) = .held (back lowering held value) := by
    rw [back, handed, taken, turned_held, turned_held]
    rfl
  have htyped : ∀ value, HasType lowering (.option held) value →
      HasType lowering (.option held) (back lowering (.option held) value) := by
    intro value hvalue
    obtain rfl | ⟨inner, rfl, hinner⟩ := hvalue.option_inv
    · rw [habsent]
      exact .absent held
    · rw [hheld]
      exact .held (h.typed inner hinner)
  refine ⟨fun value hvalue => ?_, htyped, fun value other hvalue hother => ?_,
    fun value hvalue => ?_, fun value hvalue meaning => ?_⟩
  · obtain rfl | ⟨inner, rfl, hinner⟩ := hvalue.option_inv
    · rw [handed, turned_absent]
      exact .absent _
    · rw [handed, turned_held]
      exact .held (h.form inner hinner)
  · rw [Bool.eq_iff_iff, equal_option_iff (htyped value hvalue) hother,
      equal_option_iff hvalue hother]
    obtain rfl | ⟨inner, rfl, hinner⟩ := hvalue.option_inv
    · rw [habsent]
    · obtain rfl | ⟨inner', rfl, hinner'⟩ := hother.option_inv
      · simp [hheld]
      · simp [hheld, h.typed inner hinner, hinner, hinner', h.equal inner inner' hinner hinner']
  · obtain rfl | ⟨inner, rfl, hinner⟩ := hvalue.option_inv
    · rw [habsent]
    · rw [hheld, hash_held, hash_held, h.hash inner hinner]
  · obtain rfl | ⟨inner, rfl, hinner⟩ := hvalue.option_inv
    · rw [habsent]
    · rw [hheld]
      constructor
      · intro hreads
        cases hreads with
        | held hread => exact .held ((h.reads inner hinner _).mp hread)
      · intro hreads
        cases hreads with
        | held hread => exact .held ((h.reads inner hinner _).mpr hread)

theorem turns_list {element : Ty} (h : Turns lowering element) :
    Turns lowering (.list element) := by
  have hback (elements : List (Val R)) : back lowering (.list element) (.list elements) =
      .list (elements.map (back lowering element)) := by
    rw [back, handed, taken, turned_list, turned_list, List.map_map]
    rfl
  have htyped {elements : List (Val R)} (helements : ∀ it ∈ elements, HasType lowering element it) :
      ∀ it ∈ elements.map (back lowering element), HasType lowering element it := by
    intro it hit
    obtain ⟨one, hone, rfl⟩ := List.mem_map.mp hit
    exact h.typed one (helements one hone)
  refine ⟨fun value hvalue => ?_, fun value hvalue => ?_, fun value other hvalue hother => ?_,
    fun value hvalue => ?_, fun value hvalue meaning => ?_⟩
  · obtain ⟨elements, rfl, helements⟩ := hvalue.list_inv
    rw [handed, turned_list]
    refine .list fun it hit => ?_
    obtain ⟨one, hone, rfl⟩ := List.mem_map.mp hit
    exact h.form one (helements one hone)
  · obtain ⟨elements, rfl, helements⟩ := hvalue.list_inv
    rw [hback]
    exact .list (htyped helements)
  · obtain ⟨elements, rfl, helements⟩ := hvalue.list_inv
    obtain ⟨others, rfl, hothers⟩ := hother.list_inv
    rw [hback, equal_list_typed (htyped helements) hothers, equal_list_typed helements hothers,
      List.length_map, List.zip_map_left, List.all_map]
    congr 1
    rw [Bool.eq_iff_iff, List.all_eq_true, List.all_eq_true]
    refine forall₂_congr fun pair hpair => ?_
    rw [← h.equal pair.1 pair.2 (helements _ (List.of_mem_zip hpair).1)
      (hothers _ (List.of_mem_zip hpair).2)]
    rfl
  · obtain ⟨elements, rfl, helements⟩ := hvalue.list_inv
    rw [hback, hash_list, hash_list, List.length_map, List.foldl_map]
    refine if_congr Iff.rfl rfl (List.foldl_ext _ _ _ fun hashed it hit => ?_)
    rw [h.hash it (helements it hit)]
  · obtain ⟨elements, rfl, helements⟩ := hvalue.list_inv
    have hall := readsAll_map fun it hit => h.reads it (helements it hit)
    rw [hback]
    constructor
    · intro hreads
      cases hreads with
      | list hmeanings => exact .list ((hall _).mp hmeanings)
    · intro hreads
      cases hreads with
      | list hmeanings => exact .list ((hall _).mpr hmeanings)

def backEach (lowering : Lowerings R Key) (types : List Ty) (values : List (Val R)) : List (Val R) :=
  turnedEach lowering .fromHost types (turnedEach lowering .toHost types values)

theorem backEach_nil : backEach lowering [] ([] : List (Val R)) = [] := by
  rw [backEach, turnedEach, turnedEach] <;> simp

theorem backEach_cons (ty : Ty) (types : List Ty) (value : Val R) (values : List (Val R)) :
    backEach lowering (ty :: types) (value :: values) =
      back lowering ty value :: backEach lowering types values := by
  rw [backEach, turnedEach, turnedEach]
  rfl

section Each

variable {types : List Ty} (h : ∀ ty ∈ types, Turns lowering ty)

include h

theorem formEach {values : List (Val R)} (hvalues : HasTypes lowering types values) :
    HasTypes lowering (formOfEach types) (turnedEach lowering .toHost types values) := by
  induction hvalues with
  | nil =>
    rw [formOfEach, turnedEach]
    · exact .nil
    · simp
  | cons hone _ ih =>
    rw [formOfEach, turnedEach]
    exact .cons ((h _ List.mem_cons_self).form _ hone)
      (ih fun ty hty => h ty (List.mem_cons_of_mem _ hty))

theorem typedEach {values : List (Val R)} (hvalues : HasTypes lowering types values) :
    HasTypes lowering types (backEach lowering types values) := by
  induction hvalues with
  | nil =>
    rw [backEach_nil]
    exact .nil
  | cons hone _ ih =>
    rw [backEach_cons]
    exact .cons ((h _ List.mem_cons_self).typed _ hone)
      (ih fun ty hty => h ty (List.mem_cons_of_mem _ hty))

theorem equalEach {values others : List (Val R)} (hvalues : HasTypes lowering types values)
    (hothers : HasTypes lowering types others) :
    slotsEqual lowering types (backEach lowering types values) others =
      slotsEqual lowering types values others := by
  induction hvalues generalizing others with
  | nil => rw [backEach_nil]
  | cons hone _ ih =>
    cases hothers with
    | cons hother hothers =>
      rw [backEach_cons, slotsEqual_cons, slotsEqual_cons,
        (h _ List.mem_cons_self).equal _ _ hone hother,
        ih (fun ty hty => h ty (List.mem_cons_of_mem _ hty)) hothers]

theorem hashEach {values : List (Val R)} (hvalues : HasTypes lowering types values)
    (start : BitVec 64) :
    slotsHash lowering start types (backEach lowering types values) =
      slotsHash lowering start types values := by
  induction hvalues generalizing start with
  | nil => rw [backEach_nil]
  | cons hone _ ih =>
    rw [backEach_cons, slotsHash_cons, slotsHash_cons, (h _ List.mem_cons_self).hash _ hone,
      ih fun ty hty => h ty (List.mem_cons_of_mem _ hty)]

theorem readsEach {values : List (Val R)} (hvalues : HasTypes lowering types values)
    (meanings : List (Meaning R)) :
    ReadsEach lowering.declared types (backEach lowering types values) meanings ↔
      ReadsEach lowering.declared types values meanings := by
  induction hvalues generalizing meanings with
  | nil => rw [backEach_nil]
  | cons hone _ ih =>
    have hrest := ih fun ty hty => h ty (List.mem_cons_of_mem _ hty)
    have hfirst := (h _ List.mem_cons_self).reads _ hone
    rw [backEach_cons]
    constructor
    · intro hreads
      cases hreads with
      | cons hread hreads => exact .cons ((hfirst _).mp hread) ((hrest _).mp hreads)
    · intro hreads
      cases hreads with
      | cons hread hreads => exact .cons ((hfirst _).mpr hread) ((hrest _).mpr hreads)

theorem turns_tuple : Turns lowering (.tuple types) := by
  have hback (members : List (Val R)) : back lowering (.tuple types) (.members members) =
      .members (backEach lowering types members) := by
    rw [back, handed, taken, turned_tuple, turned_tuple]
    rfl
  have hmembers {types : List Ty} {members : List (Val R)}
      (hmembers : HasTypes lowering types members) :
      HasType lowering (.tuple types) (.members members) :=
    .members (hasTypes_iff.mp hmembers).1 (hasTypes_iff.mp hmembers).2
  refine ⟨fun value hvalue => ?_, fun value hvalue => ?_, fun value other hvalue hother => ?_,
    fun value hvalue => ?_, fun value hvalue meaning => ?_⟩ <;>
    obtain ⟨members, rfl, htyped⟩ := hvalue.tuple_inv
  · rw [handed, turned_tuple, formOf]
    exact hmembers (formEach h htyped)
  · rw [hback]
    exact hmembers (typedEach h htyped)
  · obtain ⟨others, rfl, hothers⟩ := hother.tuple_inv
    rw [hback, equal_tuple, equal_tuple, equalEach h htyped hothers]
  · rw [hback, hash_tuple, hash_tuple, hashEach h htyped]
  · rw [hback]
    constructor
    · intro hreads
      cases hreads with
      | members hslots => exact .members ((readsEach h htyped _).mp hslots)
    · intro hreads
      cases hreads with
      | members hslots => exact .members ((readsEach h htyped _).mpr hslots)

end Each

def backEntry {V W : Type} (lowering : Lowerings R Key) (key : Ty) (value : V → W)
    (entry : Entry (Val R) V) : Entry (Val R) W :=
  ⟨Hashing.hash lowering key (back lowering key entry.key), back lowering key entry.key,
    value entry.value⟩

section Keys

variable {key : Ty} (h : Turns lowering key)

include h

theorem back_apart {V : Type} {entries : List (Entry (Val R) V)} (hkept : Kept lowering key entries) :
    entries.Pairwise (fun a b => Equality.equal lowering key (back lowering key a.key)
      (back lowering key b.key) = false) := by
  refine hkept.apart.imp_of_mem fun {a b} ha hb hab => ?_
  rw [h.equal_both (hkept.keys a ha) (hkept.keys b hb), hab]

theorem back_kept {V W : Type} {entries : List (Entry (Val R) V)} (hkept : Kept lowering key entries)
    (value : V → W) : Kept lowering key (entries.map (backEntry lowering key value)) where
  hash := by
    intro entry hentry
    obtain ⟨it, -, rfl⟩ := List.mem_map.mp hentry
    rfl
  keys := by
    intro entry hentry
    obtain ⟨it, hit, rfl⟩ := List.mem_map.mp hentry
    exact h.typed it.key (hkept.keys it hit)
  apart := List.pairwise_map.mpr (back_apart h hkept)

theorem back_hash {V W : Type} {entries : List (Entry (Val R) V)} (hkept : Kept lowering key entries)
    (value : V → W) {entry : Entry (Val R) V} (hentry : entry ∈ entries) :
    (backEntry lowering key value entry).hash = entry.hash := by
  rw [hkept.hash entry hentry, ← h.hash entry.key (hkept.keys entry hentry)]
  rfl

theorem sameMember_back {V W : Type} {entries : List (Entry (Val R) V)}
    {others : List (Entry (Val R) W)} (hkept : Kept lowering key entries)
    (hothers : Kept lowering key others) (value : V → W) {a : Entry (Val R) V}
    {b : Entry (Val R) W} (ha : a ∈ entries) (hb : b ∈ others) :
    b.hash = (backEntry lowering key value a).hash ∧
        Equality.equal lowering key b.key (back lowering key a.key) = true ↔
      b.hash = a.hash ∧ Equality.equal lowering key b.key a.key = true := by
  rw [back_hash h hkept value ha, h.equal_right (hkept.keys a ha) (hothers.keys b hb)]

theorem readsAll_back {V W : Type} {entries : List (Entry (Val R) V)}
    (hkept : Kept lowering key entries) (value : V → W) (meanings : List (Meaning R)) :
    ReadsAll lowering.declared key ((entries.map (backEntry lowering key value)).map Entry.key)
        meanings ↔
      ReadsAll lowering.declared key (entries.map Entry.key) meanings := by
  have hlisted : (entries.map (backEntry lowering key value)).map Entry.key =
      (entries.map Entry.key).map (back lowering key) := by
    rw [List.map_map, List.map_map]
    rfl
  rw [hlisted]
  refine readsAll_map (fun it hit => ?_) meanings
  obtain ⟨entry, hentry, rfl⟩ := List.mem_map.mp hit
  exact h.reads entry.key (hkept.keys entry hentry)

theorem back_set {entries : List (Entry (Val R) Int64)} (hkept : Kept lowering key entries) :
    back lowering (.set key) (.set entries) =
      .set (entries.map (backEntry lowering key fun _ => 0)) := by
  have hlisted : ((entries.map Entry.key).map (turned lowering .toHost key)).map
      (turned lowering .fromHost key) = entries.map fun entry => back lowering key entry.key := by
    rw [List.map_map, List.map_map]
    rfl
  rw [back, handed, taken, turned_set_toHost, turned_set_fromHost, hlisted,
    setFromList_distinct (List.pairwise_map.mpr (back_apart h hkept)), List.map_map]
  rfl

theorem turns_set : Turns lowering (.set key) := by
  refine ⟨fun value hvalue => ?_, fun value hvalue => ?_, fun value other hvalue hother => ?_,
    fun value hvalue => ?_, fun value hvalue meaning => ?_⟩ <;>
    obtain ⟨entries, rfl, hkept⟩ := hvalue.set_inv
  · rw [handed, turned_set_toHost, formOf]
    refine .list fun it hit => ?_
    obtain ⟨member, hmember, rfl⟩ := List.mem_map.mp hit
    obtain ⟨entry, hentry, rfl⟩ := List.mem_map.mp hmember
    exact h.form entry.key (hkept.keys entry hentry)
  · rw [back_set h hkept]
    exact HasType.of_set (back_kept h hkept _)
  · obtain ⟨others, rfl, hothers⟩ := hother.set_inv
    rw [back_set h hkept, Bool.eq_iff_iff, equal_set_typed (back_kept h hkept _) hothers,
      equal_set_typed hkept hothers]
    simp only [Covered, List.length_map, List.forall_mem_map]
    refine and_congr_right fun _ => forall₂_congr fun a ha => ?_
    exact exists_congr fun b => and_congr_right fun hb => sameMember_back h hkept hothers _ ha hb
  · rw [back_set h hkept, hash_set, hash_set, setHash, setHash, List.length_map, List.foldl_map]
    congr 1
    refine List.foldl_ext _ _ _ fun sum entry hentry => ?_
    rw [back_hash h hkept _ hentry]
  · rw [back_set h hkept]
    constructor
    · intro hreads
      cases hreads with
      | set hmembers hperm => exact .set ((readsAll_back h hkept _ _).mp hmembers) hperm
    · intro hreads
      cases hreads with
      | set hmembers hperm => exact .set ((readsAll_back h hkept _ _).mpr hmembers) hperm

theorem back_map {held : Ty} {entries : List (Entry (Val R) (Val R))}
    (hkept : Kept lowering key entries) : back lowering (.map key held) (.map entries) =
      .map (entries.map (backEntry lowering key (back lowering held))) := by
  have hlisted : (entries.map fun entry => Val.members [turned lowering .toHost key entry.key,
      turned lowering .toHost held entry.value]) =
      (entries.map fun entry => (turned lowering .toHost key entry.key,
        turned lowering .toHost held entry.value)).map fun it => .members [it.1, it.2] := by
    rw [List.map_map]
    rfl
  rw [back, handed, taken, turned_map_toHost, hlisted, turned_map_fromHost, List.map_map,
    mapFromList_distinct (List.pairwise_map.mpr (back_apart h hkept)), List.map_map]
  rfl

theorem turns_map {held : Ty} (hheld : Turns lowering held) : Turns lowering (.map key held) := by
  have hvalues' {entries : List (Entry (Val R) (Val R))}
      (hvalues : ∀ entry ∈ entries, HasType lowering held entry.value) :
      ∀ entry ∈ entries.map (backEntry lowering key (back lowering held)),
        HasType lowering held entry.value := by
    intro entry hentry
    obtain ⟨it, hit, rfl⟩ := List.mem_map.mp hentry
    exact hheld.typed it.value (hvalues it hit)
  refine ⟨fun value hvalue => ?_, fun value hvalue => ?_, fun value other hvalue hother => ?_,
    fun value hvalue => ?_, fun value hvalue meaning => ?_⟩ <;>
    obtain ⟨entries, rfl, hkept, hvalues⟩ := hvalue.map_inv
  · rw [handed, turned_map_toHost, formOf]
    refine .list fun it hit => ?_
    obtain ⟨entry, hentry, rfl⟩ := List.mem_map.mp hit
    refine .members rfl fun slot hslot => ?_
    simp only [List.zip_cons_cons, List.zip_nil_right, List.mem_cons, List.not_mem_nil,
      or_false] at hslot
    rcases hslot with rfl | rfl
    · exact h.form entry.key (hkept.keys entry hentry)
    · exact hheld.form entry.value (hvalues entry hentry)
  · rw [back_map h hkept]
    exact HasType.of_map (back_kept h hkept _) (hvalues' hvalues)
  · obtain ⟨others, rfl, hothers, hovalues⟩ := hother.map_inv
    rw [back_map h hkept, Bool.eq_iff_iff,
      equal_map_typed (back_kept h hkept _) hothers (hvalues' hvalues) hovalues,
      equal_map_typed hkept hothers hvalues hovalues]
    simp only [Covered, List.length_map, List.forall_mem_map]
    refine and_congr_right fun _ => forall₂_congr fun a ha => ?_
    refine exists_congr fun b => and_congr_right fun hb => ?_
    refine and_congr (sameMember_back h hkept hothers _ ha hb) (iff_of_eq ?_)
    exact congrArg (· = true) (hheld.equal a.value b.value (hvalues a ha) (hovalues b hb))
  · rw [back_map h hkept, hash_map, hash_map, List.length_map, List.foldl_map]
    congr 1
    refine List.foldl_ext _ _ _ fun sum entry hentry => ?_
    rw [back_hash h hkept _ hentry, ← hheld.hash entry.value (hvalues entry hentry)]
    rfl
  · have hread := readsAll_map fun it hit => by
      obtain ⟨entry, hentry, rfl⟩ := List.mem_map.mp hit
      exact hheld.reads entry.value (hvalues entry hentry)
    have hlisted : (entries.map (backEntry lowering key (back lowering held))).map Entry.value =
        (entries.map Entry.value).map (back lowering held) := by
      rw [List.map_map, List.map_map]
      rfl
    rw [back_map h hkept]
    constructor
    · intro hreads
      cases hreads with
      | map hkeys hheld hperm =>
        rw [hlisted] at hheld
        exact .map ((readsAll_back h hkept _ _).mp hkeys) ((hread _).mp hheld) hperm
    · intro hreads
      cases hreads with
      | map hkeys hheld hperm =>
        refine .map ((readsAll_back h hkept _ _).mpr hkeys) ?_ hperm
        rw [hlisted]
        exact (hread _).mpr hheld

end Keys

mutual

theorem turns (ty : Ty) : Turns lowering ty := by
  cases ty with
  | set member => exact turns_set (turns member)
  | map key held => exact turns_map (turns key) (turns held)
  | option held => exact turns_option (turns held)
  | list element => exact turns_list (turns element)
  | tuple types => exact turns_tuple (turnsEach types)
  | _ => exact turns_unheld rfl

theorem turnsEach (types : List Ty) : ∀ ty ∈ types, Turns lowering ty := by
  cases types with
  | nil => exact fun ty hty => by cases hty
  | cons first types =>
    intro ty hty
    rcases List.mem_cons.mp hty with hfirst | hrest
    · rw [hfirst]
      exact turns first
    · exact turnsEach types ty hrest

end

end Back

section Result

variable {R Key : Type} [LinearOrder Key]

/-- How a value of a type crosses: in one shape, the same whichever way, each word of it in its
    place, what is taken from the words or the rooms being what was handed over, and a set or a map
    turned into its host's form and back equal to itself. -/
theorem crosses_as_itself (lowering : Lowerings R Key) (ty : Ty) :
    (∀ direction direction' crossed crossed', crossing ty direction = .ok crossed →
      crossing ty direction' = .ok crossed' → crossed.shape = crossed'.shape) ∧
    (∀ direction crossed, crossing ty direction = .ok crossed →
      (∀ value, HasType lowering ty value → HasShape crossed.shape (handed lowering ty value)) ∧
      ∀ value : Val R, HasShape crossed.shape value →
        List.Forall₂ Word.is (words crossed.shape) (wordsOf crossed.shape value) ∧
        (∀ rest, take crossed.shape (wordsOf crossed.shape value ++ rest) = some (value, rest)) ∧
        ∀ rooms, (words crossed.shape).length ≤ rooms.length →
          write crossed.shape value rooms =
            filled (fills crossed.shape value) rooms ++ rooms.drop (words crossed.shape).length ∧
          (fills crossed.shape value).length = (words crossed.shape).length ∧
          take crossed.shape (write crossed.shape value rooms) =
            some (value, rooms.drop (words crossed.shape).length)) ∧
    (∀ present (room : Word R) rooms,
      write (.option present) .absent (room :: rooms) = .byte 0#8 :: rooms) ∧
    ∀ value, HasType lowering ty value →
      HasType lowering ty (taken lowering ty (handed lowering ty value)) ∧
      (Comparable lowering.declared ty →
        equal lowering ty (taken lowering ty (handed lowering ty value)) value = true) ∧
      ∀ meaning, Reads lowering.declared ty (taken lowering ty (handed lowering ty value)) meaning ↔
        Reads lowering.declared ty value meaning := by
  refine ⟨fun d d' c c' => planned_shape ty, fun direction crossed hcrossed => ⟨?_, ?_⟩,
    fun present room rooms => rfl, ?_⟩
  · intro value hvalue
    exact hasShape_of hcrossed ((turns ty).form value hvalue)
  · intro value hvalue
    have hcrosses := crosses hvalue
    refine ⟨hcrosses.words, fun rest => ?_, fun rooms hlen => ⟨hcrosses.write rooms hlen,
      hcrosses.fills, ?_⟩⟩
    · refine hcrosses.take _ rest hcrosses.words.length_eq.symm ?_
      rw [hcrosses.wordsOf]
      exact agree_wordsOf _ _
    · rw [hcrosses.write rooms hlen]
      refine hcrosses.take _ _ ?_ (agree_filled _ _)
      rw [filled, List.length_zipWith, hcrosses.fills]
      omega
  · intro value hvalue
    refine ⟨(turns ty).typed value hvalue, fun hcomparable => ?_, (turns ty).reads value hvalue⟩
    exact ((turns ty).equal value value hvalue hvalue).trans (equal_refl hcomparable hvalue)

def numbers : Ty := .tuple [.option (.option (.prim .int)), .set (.prim .int)]

def numberEntry (word : BitVec 64) : Entry (Val ℕ) Int64 :=
  ⟨Hashing.hash (Lowerings.plain units) (.prim .int) (.word word), .word word, 0⟩

def fiveAndSix : Val ℕ :=
  .members [.held .absent, .set [numberEntry 5#64, numberEntry 6#64]]

theorem hasType_fiveAndSix : HasType (Lowerings.plain units) numbers fiveAndSix := by
  have hkeys : ∀ entry ∈ [numberEntry 5#64, numberEntry 6#64],
      entry.hash = Hashing.hash (Lowerings.plain units) (.prim .int) entry.key ∧
        HasType (Lowerings.plain units) (.prim .int) entry.key := by
    intro entry hentry
    simp only [List.mem_cons, List.not_mem_nil, or_false] at hentry
    rcases hentry with rfl | rfl
    · exact ⟨rfl, .int 5#64⟩
    · exact ⟨rfl, .int 6#64⟩
  have happart : equal (Lowerings.plain units) (.prim .int) (.word 5#64) (.word 6#64) = false :=
    (equal_int (Lowerings.plain units) (.word 5#64) (.word 6#64)).trans (by decide)
  refine .members rfl ?_
  intro slot hslot
  simp only [List.zip_cons_cons, List.zip_nil_right, List.mem_cons, List.not_mem_nil,
    or_false] at hslot
  rcases hslot with rfl | rfl
  · exact .held (.absent _)
  · exact .set (fun entry hentry => (hkeys entry hentry).1)
      (fun entry hentry => (hkeys entry hentry).2)
      (List.pairwise_pair.mpr happart)

theorem crossing_numbers : crossing numbers .given =
    .ok ⟨.product [.option (.option (.leaf .int)), .list (.leaf .int)],
      [.listBuilt (.leaf .int)]⟩ := by
  simp [crossing, numbers, planned, plannedEach, formOf, plannedPrim, leafOf, Except.map,
    Except.mapError, Except.bind]

theorem numbers_comparable : Comparable units numbers := by
  refine ⟨fun ty => ty = numbers ∨ ty = .option (.option (.prim .int)) ∨
    ty = .option (.prim .int) ∨ ty = .set (.prim .int) ∨ ty = .prim .int, .inl rfl, ?_⟩
  rintro ty (rfl | rfl | rfl | rfl | rfl)
  · intro member hmember
    simp only [List.mem_cons, List.not_mem_nil, or_false] at hmember
    rcases hmember with rfl | rfl
    · exact .inr (.inl rfl)
    · exact .inr (.inr (.inr (.inl rfl)))
  · exact .inr (.inr (.inr (.inl rfl)))
  · exact .inr (.inr (.inr (.inr (.inr rfl))))
  · exact .inr (.inr (.inr (.inr (.inr rfl))))
  · trivial

/-- The pair handed over word by word, and taken back. -/
theorem crosses_as_itself_five :
    take (.product [.option (.option (.leaf .int)), .list (.leaf .int)])
        (wordsOf (.product [.option (.option (.leaf .int)), .list (.leaf .int)])
          (handed (Lowerings.plain units) numbers fiveAndSix) ++ []) =
      some (handed (Lowerings.plain units) numbers fiveAndSix, []) ∧
    equal (Lowerings.plain units) numbers (taken (Lowerings.plain units) numbers
      (handed (Lowerings.plain units) numbers fiveAndSix)) fiveAndSix = true := by
  obtain ⟨-, hcrossed, -, hback⟩ := crosses_as_itself (Lowerings.plain units) numbers
  obtain ⟨hshape, hwords⟩ := hcrossed .given _ crossing_numbers
  exact ⟨(hwords _ (hshape fiveAndSix hasType_fiveAndSix)).2.1 [],
    (hback fiveAndSix hasType_fiveAndSix).2.1 numbers_comparable⟩

end Result

end SoutherNative.Crossing
