import SoutherNative.External
import SoutherNative.Lexicographic

set_option autoImplicit false

/-!
# The order a boundary writes a set's members in

What two forms are compared by, and the two functions that put a set's members and a map's entries
in order. The comparison is a loop over a stack of what is left to compare. It is shown to compare
the two forms' readings, which are lists of numbers.
-/
namespace SoutherNative.ExternalOrder
open Utf8 External Lexicographic

variable {Amount : Type}

/-- What the exact-arithmetic library says of a `Decimal`: the number it is, whatever its scale. -/
structure Exact (Amount : Type) where
  value : Amount → ℚ
  ofInt : Int64 → Amount
  compare : Amount → Amount → Ordering
  value_ofInt : ∀ n, value (ofInt n) = n.toInt
  compare_eq : ∀ one other, compare one other = cmp (value one) (value other)

def unitsOf (c : Char) : List ℕ :=
  if c.toNat < 0x10000 then [c.toNat]
  else [0xd800 + (c.toNat - 0x10000) / 0x400, 0xdc00 + (c.toNat - 0x10000) % 0x400]

def units (text : Bytes) : List ℕ :=
  match fromUtf8 text with
  | .ok cs => cs.flatMap unitsOf
  | .error _ => []

mutual

def textual : Form Amount → Bool
  | .string text => (fromUtf8 text).isOk
  | .array items => itemsTextual items
  | .object members => membersTextual members
  | _ => true

def itemsTextual : List (Form Amount) → Bool
  | [] => true
  | item :: items => textual item && itemsTextual items

def membersTextual : List (Bytes × Form Amount) → Bool
  | [] => true
  | (key, item) :: members => (fromUtf8 key).isOk && textual item && membersTextual members

end

def placed {A : Type} (le : A → A → Bool) (list : List A) : List A :=
  let sorted := (List.range list.length).mergeSort (fun one other =>
    match list[one]?, list[other]? with
    | some one, some other => le one other
    | _, _ => true)
  sorted.filterMap (list[·]?)

def byKey (members : List (Bytes × Form Amount)) : List (Bytes × Form Amount) :=
  placed (fun one other => lexical (units one.1) (units other.1) ≠ .gt) members

def rank : Form Amount → ℕ
  | .null => 0
  | .bool false => 1
  | .bool true => 2
  | .number _ | .amount _ => 3
  | .string _ => 4
  | .array _ => 5
  | .object _ => 6

inductive Left (Amount : Type)
  | forms (one other : Form Amount)
  | keys (one other : Bytes)
  | counts (one other : ℕ)

def pairItems (ones others : List (Form Amount)) (left : List (Left Amount)) : List (Left Amount) :=
  (ones.zip others).map (fun pair => .forms pair.1 pair.2) ++
    .counts ones.length others.length :: left

def pairMembers (ones others : List (Bytes × Form Amount)) (left : List (Left Amount)) :
    List (Left Amount) :=
  ((byKey ones).zip (byKey others)).flatMap
      (fun pair => [.keys pair.1.1 pair.2.1, .forms pair.1.2 pair.2.2]) ++
    .counts ones.length others.length :: left

def amountOf (exact : Exact Amount) : Form Amount → Option Amount
  | .number value => some (exact.ofInt value)
  | .amount amount => some amount
  | _ => none

def Left.weight : Left Amount → ℕ
  | .forms one _ => one.weight
  | _ => 1

def leftWeight (left : List (Left Amount)) : ℕ := (left.map Left.weight).sum

@[simp] theorem leftWeight_cons (next : Left Amount) (left : List (Left Amount)) :
    leftWeight (next :: left) = next.weight + leftWeight left := by
  simp [leftWeight]

theorem weight_pos (form : Form Amount) : 0 < form.weight := by
  cases form <;> simp [Form.weight]

theorem pairItems_weight (ones others : List (Form Amount)) (left : List (Left Amount)) :
    leftWeight (pairItems ones others left) <
      leftWeight (.forms (.array ones) (.array others) :: left) := by
  have hzip : ∀ (ones others : List (Form Amount)),
      leftWeight ((ones.zip others).map (fun pair => .forms pair.1 pair.2)) ≤ itemsWeight ones := by
    intro ones
    induction ones with
    | nil => simp [leftWeight]
    | cons one ones ih =>
      intro others
      cases others with
      | nil => simp [leftWeight]
      | cons other others =>
        have := ih others
        simp only [List.zip_cons_cons, List.map_cons, leftWeight_cons, Left.weight, itemsWeight]
        omega
  have := hzip ones others
  simp only [pairItems, leftWeight, List.map_append, List.sum_append, List.map_cons, List.sum_cons,
    Left.weight, Form.weight] at this ⊢
  omega

theorem filterMap_range {A : Type} (list : List A) :
    (List.range list.length).filterMap (list[·]?) = list := by
  induction list with
  | nil => rfl
  | cons a list ih =>
    rw [List.length_cons, List.range_succ_eq_map, List.filterMap_cons_some (by rfl),
      List.filterMap_map]
    exact congrArg (a :: ·) ih

theorem placed_eq {A : Type} (le : A → A → Bool) (list : List A) :
    placed le list = list.mergeSort le := by
  let here : Option A → Option A → Bool
    | some one, some other => le one other
    | _, _ => true
  have hplaces : ((List.range list.length).mergeSort (fun one other => here list[one]? list[other]?)).map
      (list[·]?) = (list.mergeSort le).map some := by
    have hsome : (List.range list.length).map (list[·]?) = list.map some := by
      have h := congrArg (List.map some) (filterMap_range list)
      apply List.ext_getElem?
      intro index
      simp only [List.getElem?_map]
      by_cases hindex : index < list.length
      · simp [hindex]
      · simp [hindex]
    rw [List.map_mergeSort (s := here) (fun _ _ _ _ => rfl), hsome,
      List.map_mergeSort (s := here) (fun _ _ _ _ => rfl)]
  have hmap := congrArg (List.filterMap id) hplaces
  simp only [List.filterMap_map, Function.comp_def, id] at hmap
  rw [placed]
  refine Eq.trans ?_ (hmap.trans (List.filterMap_some))
  congr 2

theorem byKey_perm (members : List (Bytes × Form Amount)) : (byKey members).Perm members := by
  rw [byKey, placed_eq]
  exact List.mergeSort_perm _ _

theorem membersWeight_perm {members others : List (Bytes × Form Amount)} (h : members.Perm others) :
    membersWeight members = membersWeight others := by
  induction h with
  | nil => rfl
  | cons member _ ih => simp only [membersWeight, ih]
  | swap one other members => simp only [membersWeight]; omega
  | trans _ _ ih ih' => exact ih.trans ih'

theorem pairMembers_weight (ones others : List (Bytes × Form Amount)) (left : List (Left Amount)) :
    leftWeight (pairMembers ones others left) <
      leftWeight (.forms (.object ones) (.object others) :: left) := by
  have hzip : ∀ (ones others : List (Bytes × Form Amount)),
      leftWeight ((ones.zip others).flatMap
        (fun pair => [.keys pair.1.1 pair.2.1, .forms pair.1.2 pair.2.2])) ≤ membersWeight ones := by
    intro ones
    induction ones with
    | nil => simp [leftWeight]
    | cons one ones ih =>
      intro others
      cases others with
      | nil => simp [leftWeight]
      | cons other others =>
        have := ih others
        simp only [List.zip_cons_cons, List.flatMap_cons, List.cons_append, List.nil_append,
          leftWeight_cons, Left.weight, membersWeight]
        omega
  have := hzip (byKey ones) (byKey others)
  rw [membersWeight_perm (byKey_perm ones)] at this
  simp only [pairMembers, leftWeight, List.map_append, List.sum_append, List.map_cons, List.sum_cons,
    Left.weight, Form.weight] at this ⊢
  omega

/-- The loop of `order`, over what is left to compare. -/
def orderFrom (exact : Exact Amount) (left : List (Left Amount)) : Ordering :=
  match left with
  | [] => .eq
  | .counts one other :: left => (cmp one other).then (orderFrom exact left)
  | .keys one other :: left => (lexical (units one) (units other)).then (orderFrom exact left)
  | .forms one other :: left =>
    if rank one ≠ rank other then (cmp (rank one) (rank other)).then (orderFrom exact left)
    else
      match one, other with
      | .number one, .number other => (cmp one.toInt other.toInt).then (orderFrom exact left)
      | .string one, .string other =>
        (lexical (units one) (units other)).then (orderFrom exact left)
      | .array ones, .array others => orderFrom exact (pairItems ones others left)
      | .object ones, .object others => orderFrom exact (pairMembers ones others left)
      | one, other =>
        match amountOf exact one, amountOf exact other with
        | some one, some other => (exact.compare one other).then (orderFrom exact left)
        | _, _ => orderFrom exact left
termination_by leftWeight left
decreasing_by
  all_goals first
    | exact pairItems_weight _ _ _
    | exact pairMembers_weight _ _ _
    | (rw [leftWeight_cons]; simp only [Left.weight]; omega)
    | (rw [leftWeight_cons]; have := weight_pos one; simp only [Left.weight]; omega)
    | (rw [leftWeight_cons]; simp only [Left.weight, Form.weight]; omega)

/-- `order`: two forms in the order a boundary writes a set's members in. -/
def order (exact : Exact Amount) (one other : Form Amount) : Ordering :=
  orderFrom exact [.forms one other]

/-- `souther_external_order`: a set's members in order. None where the process ends: the form is no
    array, or what a string of it holds is no text. -/
def externalOrder (exact : Exact Amount) : Form Amount → Option (Form Amount)
  | .array items =>
    if itemsTextual items then
      some (.array (placed (fun one other => order exact one other ≠ .gt) items))
    else none
  | _ => none

def entryOf : Form Amount → Option (Bytes × Form Amount)
  | .array [.string key, value] => some (key, value)
  | _ => none

/-- `souther_external_entries`: a map's entries as the object a boundary writes. -/
def externalEntries : Form Amount → Option (Form Amount)
  | .array items =>
    (items.mapM entryOf).bind (fun members =>
      if members.all (fun member => (fromUtf8 member.1).isOk) then
        some (.object (members.mergeSort
          (fun one other => lexical (units one.1) (units other.1) ≠ .gt)))
      else none)
  | _ => none

def CLOSE : ℚ := -1

def text (units : List ℕ) : List ℚ := units.map (↑) ++ [CLOSE]

def memberCode (member : List ℕ × List ℚ) : List ℚ := 0 :: (text member.1 ++ member.2)

mutual

def reading (exact : Exact Amount) : Form Amount → List ℚ
  | .null => [0]
  | .bool false => [1]
  | .bool true => [2]
  | .number value => [3, value.toInt]
  | .amount amount => [3, exact.value amount]
  | .string it => 4 :: text (units it)
  | .array items => 5 :: ((itemReadings exact items).flatten ++ [CLOSE])
  | .object members =>
    6 :: (((memberReadings exact members).mergeSort
      (fun one other => lexical one.1 other.1 ≠ .gt)).flatMap memberCode ++ [CLOSE])

def itemReadings (exact : Exact Amount) : List (Form Amount) → List (List ℚ)
  | [] => []
  | item :: items => reading exact item :: itemReadings exact items

def memberReadings (exact : Exact Amount) : List (Bytes × Form Amount) → List (List ℕ × List ℚ)
  | [] => []
  | (key, item) :: members => (units key, reading exact item) :: memberReadings exact members

end

variable {exact : Exact Amount}

theorem itemReadings_eq (items : List (Form Amount)) :
    (itemReadings exact items).flatten = items.flatMap (reading exact) := by
  induction items with
  | nil => rfl
  | cons item items ih => rw [itemReadings, List.flatten_cons, ih, List.flatMap_cons]

def memberReading (exact : Exact Amount) (member : Bytes × Form Amount) : List ℕ × List ℚ :=
  (units member.1, reading exact member.2)

theorem memberReadings_eq (members : List (Bytes × Form Amount)) :
    memberReadings exact members = members.map (memberReading exact) := by
  induction members with
  | nil => rfl
  | cons member members ih =>
    rw [memberReadings, ih]
    rfl

theorem reading_object (members : List (Bytes × Form Amount)) :
    reading exact (.object members) =
      6 :: ((byKey members).flatMap (fun member => memberCode (memberReading exact member)) ++
        [CLOSE]) := by
  rw [reading, memberReadings_eq, byKey, placed_eq, ← List.map_mergeSort, List.flatMap_map]
  exact fun _ _ _ _ => rfl

theorem reading_array (items : List (Form Amount)) :
    reading exact (.array items) = 5 :: (items.flatMap (reading exact) ++ [CLOSE]) := by
  rw [reading, itemReadings_eq]

theorem close_lt (n : ℕ) : CLOSE < (n : ℚ) := by
  have : (0 : ℚ) ≤ n := Nat.cast_nonneg n
  rw [CLOSE]
  linarith

theorem reading_rank (exact : Exact Amount) (form : Form Amount) :
    ∃ rest, reading exact form = (rank form : ℚ) :: rest := by
  cases form with
  | bool truth => cases truth <;> simp [reading, rank]
  | _ => simp [reading, rank]

theorem opens_reading : Opens (reading exact) CLOSE := by
  intro form
  obtain ⟨rest, hrest⟩ := reading_rank exact form
  exact ⟨_, rest, hrest, close_lt _⟩

theorem opens_memberCode : Opens (fun member => memberCode (memberReading exact member)) CLOSE := by
  intro member
  exact ⟨0, _, rfl, by rw [CLOSE]; norm_num⟩

theorem parted_text (ones others : List ℕ) : Parted (text ones) (text others) := by
  have hopens : Opens (fun n : ℕ => [(n : ℚ)]) CLOSE := fun n => ⟨n, [], rfl, close_lt n⟩
  have := @Opens.parted_runs _ _ _ _ _ hopens ones others (fun _ _ _ _ => .singleton _ _)
  rw [text, text, List.map_eq_flatMap, List.map_eq_flatMap]
  exact this

theorem lexical_text (ones others : List ℕ) :
    lexical (text ones) (text others) = lexical ones others :=
  lexical_closed Nat.strictMono_cast close_lt ones others

def numberOf (exact : Exact Amount) (form : Form Amount) : Option ℚ :=
  (amountOf exact form).map exact.value

inductive SameRank (exact : Exact Amount) : Form Amount → Form Amount → Prop
  | null : SameRank exact .null .null
  | bool (truth : Bool) : SameRank exact (.bool truth) (.bool truth)
  | number {one other : Form Amount} {a b : ℚ} : numberOf exact one = some a →
      numberOf exact other = some b → SameRank exact one other
  | string (one other : Bytes) : SameRank exact (.string one) (.string other)
  | array (ones others : List (Form Amount)) : SameRank exact (.array ones) (.array others)
  | object (ones others : List (Bytes × Form Amount)) :
      SameRank exact (.object ones) (.object others)

theorem sameRank (exact : Exact Amount) {one other : Form Amount} (h : rank one = rank other) : SameRank exact one other := by
  cases one with
  | null =>
    cases other with
    | null => exact .null
    | bool truth => cases truth <;> cases h
    | _ => cases h
  | bool truth =>
    cases other with
    | bool also => cases truth <;> cases also <;> first | exact .bool _ | cases h
    | _ => cases truth <;> cases h
  | number value =>
    cases other with
    | number also => exact .number rfl rfl
    | amount also => exact .number rfl rfl
    | bool truth => cases truth <;> cases h
    | _ => cases h
  | amount value =>
    cases other with
    | number also => exact .number rfl rfl
    | amount also => exact .number rfl rfl
    | bool truth => cases truth <;> cases h
    | _ => cases h
  | string one =>
    cases other with
    | string other => exact .string one other
    | bool truth => cases truth <;> cases h
    | _ => cases h
  | array ones =>
    cases other with
    | array others => exact .array ones others
    | bool truth => cases truth <;> cases h
    | _ => cases h
  | object ones =>
    cases other with
    | object others => exact .object ones others
    | bool truth => cases truth <;> cases h
    | _ => cases h

theorem reading_number {form : Form Amount} {a : ℚ} (h : numberOf exact form = some a) :
    reading exact form = [3, a] := by
  cases form with
  | number value =>
    simp only [numberOf, amountOf, Option.map_some, exact.value_ofInt, Option.some.injEq] at h
    rw [reading, h]
  | amount value =>
    simp only [numberOf, amountOf, Option.map_some, Option.some.injEq] at h
    rw [reading, h]
  | _ => cases h

theorem orderFrom_number {one other : Form Amount} {a b : ℚ} (hone : numberOf exact one = some a)
    (hother : numberOf exact other = some b) (left : List (Left Amount)) :
    orderFrom exact (.forms one other :: left) = (cmp a b).then (orderFrom exact left) := by
  have hint : ∀ n m : Int64, cmp n.toInt m.toInt = cmp (n.toInt : ℚ) (m.toInt : ℚ) := by
    intro n m
    exact (Int.cast_strictMono.cmp_map_eq n.toInt m.toInt).symm
  cases one with
  | number n =>
    cases other with
    | number m =>
      simp only [numberOf, amountOf, Option.map_some, exact.value_ofInt, Option.some.injEq]
        at hone hother
      rw [orderFrom, if_neg (by simp [rank]), hint, hone, hother]
    | amount m =>
      simp only [numberOf, amountOf, Option.map_some, exact.value_ofInt, Option.some.injEq]
        at hone hother
      rw [orderFrom, if_neg (by simp [rank])]
      · simp only [amountOf, exact.compare_eq, exact.value_ofInt, hone, hother]
      all_goals simp
    | _ => cases hother
  | amount n =>
    cases other with
    | number m | amount m =>
      simp only [numberOf, amountOf, Option.map_some, exact.value_ofInt, Option.some.injEq]
        at hone hother
      rw [orderFrom, if_neg (by simp [rank])]
      · simp only [amountOf, exact.compare_eq, exact.value_ofInt, hone, hother]
      all_goals simp
    | _ => cases hother
  | _ => cases hone

theorem itemsWeight_mem {item : Form Amount} {items : List (Form Amount)} (h : item ∈ items) :
    item.weight < itemsWeight items + 1 := by
  induction items with
  | nil => cases h
  | cons one items ih =>
    rcases List.mem_cons.mp h with rfl | h
    · rw [itemsWeight]
      omega
    · have := ih h
      rw [itemsWeight]
      omega

theorem membersWeight_mem {member : Bytes × Form Amount} {members : List (Bytes × Form Amount)}
    (h : member ∈ members) : member.2.weight < membersWeight members + 1 := by
  induction members with
  | nil => cases h
  | cons one members ih =>
    rcases List.mem_cons.mp h with rfl | h
    · rw [membersWeight]
      omega
    · have := ih h
      rw [membersWeight]
      omega

theorem reading_parted (one other : Form Amount) :
    Parted (reading exact one) (reading exact other) := by
  induction hn : one.weight using Nat.strong_induction_on generalizing one other with
  | _ n ih =>
    by_cases hrank : rank one = rank other
    · cases sameRank exact hrank with
      | null => exact .refl _
      | bool truth => exact .refl _
      | number hone hother =>
        rw [reading_number hone, reading_number hother]
        exact (Parted.singleton _ _).cons 3
      | string one other =>
        rw [reading, reading]
        exact (parted_text _ _).cons 4
      | array ones others =>
        rw [reading_array, reading_array]
        refine (opens_reading.parted_runs fun a ha b _ => ?_).cons 5
        have hlt := itemsWeight_mem ha
        rw [Form.weight] at hn
        exact ih _ (by omega) a b rfl
      | object ones others =>
        rw [reading_object, reading_object]
        refine (opens_memberCode.parted_runs fun a ha b _ => ?_).cons 6
        have hlt := membersWeight_mem ((byKey_perm ones).mem_iff.mp ha)
        rw [Form.weight] at hn
        exact ((parted_text _ _).append (ih _ (by omega) a.2 b.2 rfl)).cons 0
    · obtain ⟨rest, hone⟩ := reading_rank exact one
      obtain ⟨rest', hother⟩ := reading_rank exact other
      rw [hone, hother]
      exact .of_ne (fun h => hrank (Nat.cast_injective h)) _ _

def Left.one (exact : Exact Amount) : Left Amount → List ℚ
  | .forms one _ => reading exact one
  | .keys one _ => 0 :: text (units one)
  | .counts one _ => [(one : ℚ)]

def Left.other (exact : Exact Amount) : Left Amount → List ℚ
  | .forms _ other => reading exact other
  | .keys _ other => 0 :: text (units other)
  | .counts _ other => [(other : ℚ)]

theorem flatMap_pairItems (exact : Exact Amount) (ones others : List (Form Amount)) (left : List (Left Amount)) :
    (pairItems ones others left).flatMap (Left.one exact) =
        (ones.zip others).flatMap (fun pair => reading exact pair.1) ++
          (ones.length : ℚ) :: left.flatMap (Left.one exact) ∧
      (pairItems ones others left).flatMap (Left.other exact) =
        (ones.zip others).flatMap (fun pair => reading exact pair.2) ++
          (others.length : ℚ) :: left.flatMap (Left.other exact) := by
  simp [pairItems, List.flatMap_map, Left.one, Left.other]

theorem flatMap_pairMembers (exact : Exact Amount) (ones others : List (Bytes × Form Amount)) (left : List (Left Amount)) :
    (pairMembers ones others left).flatMap (Left.one exact) =
        ((byKey ones).zip (byKey others)).flatMap
            (fun pair => memberCode (memberReading exact pair.1)) ++
          (ones.length : ℚ) :: left.flatMap (Left.one exact) ∧
      (pairMembers ones others left).flatMap (Left.other exact) =
        ((byKey ones).zip (byKey others)).flatMap
            (fun pair => memberCode (memberReading exact pair.2)) ++
          (others.length : ℚ) :: left.flatMap (Left.other exact) := by
  simp [pairMembers, List.flatMap_assoc, Left.one, Left.other, memberCode, memberReading]

theorem lexical_cons_ne {one other : ℕ} (h : one ≠ other) (ones others : List ℚ) (next : Ordering) :
    (cmp one other).then next = lexical ((one : ℚ) :: ones) ((other : ℚ) :: others) := by
  rw [lexical, Nat.strictMono_cast.cmp_map_eq]
  cases hcmp : cmp one other with
  | eq => exact absurd ((cmp_eq_eq_iff one other).mp hcmp) h
  | lt | gt => rfl

theorem lexical_same_cons (a : ℚ) (ones others : List ℚ) :
    lexical (a :: ones) (a :: others) = lexical ones others := by
  rw [lexical, cmp_self_eq_eq]
  rfl

theorem orderFrom_eq (left : List (Left Amount)) :
    orderFrom exact left =
      lexical (left.flatMap (Left.one exact)) (left.flatMap (Left.other exact)) := by
  induction hn : leftWeight left using Nat.strong_induction_on generalizing left with
  | _ n ih =>
    cases left with
    | nil =>
      rw [orderFrom]
      rfl
    | cons next left =>
      rw [leftWeight_cons] at hn
      simp only [List.flatMap_cons]
      cases next with
      | counts one other =>
        simp only [Left.weight] at hn
        rw [orderFrom, ih _ (by omega) left rfl]
        simp only [Left.one, Left.other, List.singleton_append, lexical]
        rw [← (@Nat.strictMono_cast ℚ _ _ _ _ _).cmp_map_eq]
      | keys one other =>
        simp only [Left.weight] at hn
        rw [orderFrom, ih _ (by omega) left rfl, ← lexical_text]
        rw [Left.one, Left.other, ((parted_text _ _).cons 0).lexical_append, lexical,
          cmp_self_eq_eq]
        rfl
      | forms one other =>
        simp only [Left.weight] at hn
        have hpos := weight_pos one
        have hrest := ih _ (by omega) left rfl
        simp only [Left.one, Left.other]
        by_cases hrank : rank one = rank other
        · have hsame := sameRank exact hrank
          cases hsame with
          | null =>
            rw [orderFrom, if_neg (by simp), hrest]
            · rw [(Parted.refl _).lexical_append, lexical_self]
              rfl
            all_goals simp
          | bool truth =>
            rw [orderFrom, if_neg (by simp), hrest]
            · rw [(Parted.refl _).lexical_append, lexical_self]
              rfl
            all_goals simp
          | number hone hother =>
            rw [orderFrom_number hone hother, hrest, reading_number hone, reading_number hother]
            simp only [List.cons_append, lexical_same_cons]
            rfl
          | string one other =>
            rw [orderFrom, if_neg (by simp [rank]), hrest, reading, reading, ← lexical_text,
              List.cons_append, List.cons_append, lexical_same_cons,
              (parted_text _ _).lexical_append]
          | array ones others =>
            have hweight := pairItems_weight ones others left
            rw [leftWeight_cons, Left.weight] at hweight
            obtain ⟨hones, hothers⟩ := flatMap_pairItems exact ones others left
            rw [orderFrom, if_neg (by simp [rank]), ih _ (by omega) _ rfl, hones, hothers,
              reading_array, reading_array]
            simp only [List.cons_append, List.append_assoc, List.nil_append, lexical_same_cons]
            rw [opens_reading.lexical_runs Nat.strictMono_cast
              (fun a _ b _ => reading_parted a b) 0, Nat.zero_add, Nat.zero_add]
          | object ones others =>
            have hweight := pairMembers_weight ones others left
            rw [leftWeight_cons, Left.weight] at hweight
            obtain ⟨hones, hothers⟩ := flatMap_pairMembers exact ones others left
            rw [orderFrom, if_neg (by simp [rank]), ih _ (by omega) _ rfl, hones, hothers,
              reading_object, reading_object]
            simp only [List.cons_append, List.append_assoc, List.nil_append, lexical_same_cons]
            rw [opens_memberCode.lexical_runs Nat.strictMono_cast
              (fun a _ b _ => ((parted_text _ _).append (reading_parted a.2 b.2)).cons 0) 0,
              (byKey_perm ones).length_eq, (byKey_perm others).length_eq, Nat.zero_add, Nat.zero_add]
        · obtain ⟨rest, hone⟩ := reading_rank exact one
          obtain ⟨rest', hother⟩ := reading_rank exact other
          rw [orderFrom, if_pos hrank, hone, hother, List.cons_append, List.cons_append]
          · exact lexical_cons_ne hrank _ _ _
          all_goals
            rintro _ _ rfl rfl
            exact hrank rfl

theorem order_eq (one other : Form Amount) :
    order exact one other = lexical (reading exact one) (reading exact other) := by
  rw [order, orderFrom_eq]
  simp [Left.one, Left.other]

theorem order_self (form : Form Amount) : order exact form form = .eq := by
  rw [order_eq, lexical_self]

theorem order_swap (one other : Form Amount) :
    order exact other one = (order exact one other).swap := by
  rw [order_eq, order_eq, lexical_swap]

theorem order_trans {one between other : Form Amount} (h : order exact one between ≠ .gt)
    (h' : order exact between other ≠ .gt) : order exact one other ≠ .gt := by
  rw [order_eq] at h h' ⊢
  exact lexical_trans h h'

theorem order_total (one other : Form Amount) :
    order exact one other ≠ .gt ∨ order exact other one ≠ .gt := by
  rw [order_swap one other]
  cases order exact one other <;> simp

theorem placed_pairwise {A : Type} {before : A → A → Prop} [DecidableRel before]
    (htrans : ∀ a b c, before a b → before b c → before a c)
    (htotal : ∀ a b, before a b ∨ before b a) (list : List A) :
    (placed (fun a b => before a b) list).Pairwise before := by
  rw [placed_eq]
  have h := @List.pairwise_mergeSort A (fun a b => decide (before a b))
    (fun a b c hab hbc => by simpa using htrans a b c (by simpa using hab) (by simpa using hbc))
    (fun a b => by simpa using htotal a b) list
  exact h.imp (fun hab => by simpa using hab)

theorem placed_perm {A : Type} (le : A → A → Bool) (list : List A) : (placed le list).Perm list := by
  rw [placed_eq]
  exact List.mergeSort_perm _ _

/-- And answers one list, whatever order they came in, where no two stand at one place in it. -/
theorem placed_eq_of_perm {A : Type} {before : A → A → Prop} [DecidableRel before]
    (htrans : ∀ a b c, before a b → before b c → before a c)
    (htotal : ∀ a b, before a b ∨ before b a) {list other : List A} (h : list.Perm other)
    (hanti : ∀ a ∈ list, ∀ b ∈ list, before a b → before b a → a = b) :
    placed (fun a b => before a b) list = placed (fun a b => before a b) other := by
  refine List.Perm.eq_of_pairwise (fun a b ha hb => hanti a ?_ b ?_)
    (placed_pairwise htrans htotal list) (placed_pairwise htrans htotal other) ?_
  · exact (placed_perm _ _).mem_iff.mp ha
  · exact h.mem_iff.mpr ((placed_perm _ _).mem_iff.mp hb)
  · exact ((placed_perm _ _).trans h).trans (placed_perm _ _).symm

theorem itemsTextual_perm {items others : List (Form Amount)} (h : items.Perm others) :
    itemsTextual items = itemsTextual others := by
  induction h with
  | nil => rfl
  | cons item _ ih => rw [itemsTextual, itemsTextual, ih]
  | swap one other items => simp only [itemsTextual, Bool.and_left_comm]
  | trans _ _ ih ih' => exact ih.trans ih'

theorem externalOrder_perm {items others : List (Form Amount)} (h : items.Perm others)
    (hapart : items.Pairwise (fun one other => order exact one other ≠ .eq)) :
    externalOrder exact (.array items) = externalOrder exact (.array others) := by
  have hsymm : Std.Symm (fun one other : Form Amount => order exact one other ≠ .eq) := by
    refine ⟨fun one other hne heq => hne ?_⟩
    rw [order_swap, heq]
    rfl
  rw [externalOrder, externalOrder, itemsTextual_perm h,
    placed_eq_of_perm (fun _ _ _ => order_trans) order_total h]
  intro one hone other hother hle hle'
  by_contra hne
  have happart := hapart.forall hone hother hne
  rw [order_swap one other] at hle'
  cases heq : order exact one other with
  | eq => exact happart heq
  | gt => exact hle heq
  | lt =>
    rw [heq] at hle'
    exact hle' rfl

theorem unitsOf_append {c d : Char} {ones others : List ℕ}
    (h : unitsOf c ++ ones = unitsOf d ++ others) : c = d ∧ ones = others := by
  have hc : c.toNat < 0xd800 ∨ 0xdfff < c.toNat ∧ c.toNat < 0x110000 := c.valid
  have hd : d.toNat < 0xd800 ∨ 0xdfff < d.toNat ∧ d.toNat < 0x110000 := d.valid
  simp only [unitsOf] at h
  split_ifs at h with hone hother hother
  · simp only [List.cons_append, List.nil_append, List.cons.injEq] at h
    exact ⟨Char.toNat_inj.mp h.1, h.2⟩
  · simp only [List.cons_append, List.nil_append, List.cons.injEq] at h
    omega
  · simp only [List.cons_append, List.nil_append, List.cons.injEq] at h
    omega
  · simp only [List.cons_append, List.nil_append, List.cons.injEq] at h
    exact ⟨Char.toNat_inj.mp (by omega), h.2.2⟩

theorem unitsOf_injective {cs ds : List Char} (h : cs.flatMap unitsOf = ds.flatMap unitsOf) :
    cs = ds := by
  have hne : ∀ c : Char, unitsOf c ≠ [] := fun c => by
    rw [unitsOf]
    split_ifs <;> simp
  induction cs generalizing ds with
  | nil =>
    cases ds with
    | nil => rfl
    | cons d ds => exact absurd (List.append_eq_nil_iff.mp h.symm).1 (hne d)
  | cons c cs ih =>
    cases ds with
    | nil => exact absurd (List.append_eq_nil_iff.mp h).1 (hne c)
    | cons d ds =>
      obtain ⟨rfl, hrest⟩ := unitsOf_append h
      rw [ih hrest]

theorem units_injective {one other : Bytes} (hone : (fromUtf8 one).isOk = true)
    (hother : (fromUtf8 other).isOk = true) (h : units one = units other) : one = other := by
  cases hcs : fromUtf8 one with
  | error valid =>
    rw [hcs] at hone
    cases hone
  | ok cs =>
    cases hds : fromUtf8 other with
    | error valid =>
      rw [hds] at hother
      cases hother
    | ok ds =>
      rw [units, units, hcs, hds] at h
      rw [(fromUtf8_eq_ok one cs).mp hcs, (fromUtf8_eq_ok other ds).mp hds, unitsOf_injective h]

theorem mapM_perm {A B : Type} {f : A → Option B} {list other : List A} (h : list.Perm other) :
    (list.mapM f = none ∧ other.mapM f = none) ∨
      ∃ made made', list.mapM f = some made ∧ other.mapM f = some made' ∧ made.Perm made' := by
  by_cases hall : ∀ a ∈ list, ∃ b, f a = some b
  · right
    have hother : ∀ a ∈ other, ∃ b, f a = some b := fun a ha => hall a (h.mem_iff.mpr ha)
    have hmade : ∀ {xs : List A}, (∀ a ∈ xs, ∃ b, f a = some b) →
        xs.mapM f = some (xs.filterMap f) := by
      intro xs hxs
      induction xs with
      | nil => rfl
      | cons x xs ih =>
        obtain ⟨b, hb⟩ := hxs x List.mem_cons_self
        rw [List.mapM_cons, hb, ih (fun a ha => hxs a (List.mem_cons_of_mem _ ha)),
          List.filterMap_cons_some hb]
        rfl
    exact ⟨_, _, hmade hall, hmade hother, h.filterMap f⟩
  · left
    have hnone : ∀ {xs : List A}, (¬ ∀ a ∈ xs, ∃ b, f a = some b) → xs.mapM f = none := by
      intro xs hxs
      induction xs with
      | nil => exact absurd (fun a ha => nomatch ha) hxs
      | cons x xs ih =>
        rw [List.mapM_cons]
        cases hx : f x with
        | none => rfl
        | some b =>
          have hrest : xs.mapM f = none := by
            refine ih fun hall => hxs fun a ha => ?_
            rcases List.mem_cons.mp ha with rfl | ha
            · exact ⟨b, hx⟩
            · exact hall a ha
          rw [hrest]
          rfl
    refine ⟨hnone hall, hnone fun hother => hall fun a ha => hother a (h.mem_iff.mp ha)⟩

theorem externalEntries_perm {entries others : List (Form Amount)} (h : entries.Perm others)
    (hkeys : ∀ members, entries.mapM entryOf = some members → (members.map Prod.fst).Nodup) :
    externalEntries (.array entries) = externalEntries (.array others) := by
  rcases mapM_perm (f := entryOf) h with ⟨hnone, hnone'⟩ | ⟨members, members', hmade, hmade', hperm⟩
  · rw [externalEntries, externalEntries, hnone, hnone']
  · rw [externalEntries, externalEntries, hmade, hmade', Option.bind_some, Option.bind_some]
    have hall : members'.all (fun member => (fromUtf8 member.1).isOk) =
        members.all (fun member => (fromUtf8 member.1).isOk) := by
      rw [Bool.eq_iff_iff, List.all_eq_true, List.all_eq_true]
      exact forall_congr' fun member => by rw [hperm.mem_iff]
    rw [hall]
    split_ifs with htext
    · rw [List.all_eq_true] at htext
      have hnodup := hkeys members hmade
      have htotal : ∀ one other : Bytes × Form Amount, lexical (units one.1) (units other.1) ≠ .gt ∨
          lexical (units other.1) (units one.1) ≠ .gt := by
        intro one other
        rw [lexical_swap (units one.1)]
        cases lexical (units one.1) (units other.1) <;> simp
      have hsorted := @placed_eq_of_perm _
        (fun one other : Bytes × Form Amount => lexical (units one.1) (units other.1) ≠ .gt) _
        (fun _ _ _ => lexical_trans) htotal _ _ hperm ?_
      · rw [← placed_eq, ← placed_eq, hsorted]
      · intro one hone other hother hle hle'
        rw [lexical_swap (units one.1)] at hle'
        have heq : lexical (units one.1) (units other.1) = .eq := by
          cases hcmp : lexical (units one.1) (units other.1) with
          | eq => rfl
          | gt => exact absurd hcmp hle
          | lt =>
            rw [hcmp] at hle'
            exact absurd rfl hle'
        have hkey := units_injective (htext one hone) (htext other hother) (eq_of_lexical heq)
        exact List.inj_on_of_nodup_map hnodup hone hother hkey
    · rfl

/-- A boundary writes a set and a map the same whatever order their tries list them in: forms are
    ordered, a set's members are put in that order, and no two members that stand apart in it leave a
    choice of how they are written. -/
theorem boundary_order (exact : Exact Amount) (externalText : Amount → Bytes) :
    ((∀ form, order exact form form = .eq) ∧
      (∀ one other, order exact other one = (order exact one other).swap) ∧
      (∀ one between other, order exact one between ≠ .gt → order exact between other ≠ .gt →
        order exact one other ≠ .gt) ∧
      ∀ one other, order exact one other ≠ .gt ∨ order exact other one ≠ .gt) ∧
    (∀ items, itemsTextual items = true →
      ∃ sorted, externalOrder exact (.array items) = some (.array sorted) ∧ sorted.Perm items ∧
        sorted.Pairwise (fun one other => order exact one other ≠ .gt)) ∧
    (∀ items others, items.Perm others →
      items.Pairwise (fun one other => order exact one other ≠ .eq) →
      (externalOrder exact (.array items)).map (write externalText) =
        (externalOrder exact (.array others)).map (write externalText)) ∧
    ∀ entries others : List (Form Amount), entries.Perm others →
      (∀ members, entries.mapM entryOf = some members → (members.map Prod.fst).Nodup) →
      (externalEntries (.array entries)).map (write externalText) =
        (externalEntries (.array others)).map (write externalText) := by
  refine ⟨⟨order_self, order_swap, fun _ _ _ => order_trans, order_total⟩, ?_, ?_, ?_⟩
  · intro items htext
    refine ⟨_, if_pos htext, placed_perm _ _, ?_⟩
    exact placed_pairwise (fun _ _ _ => order_trans) order_total items
  · intro items others h hapart
    rw [externalOrder_perm h hapart]
  · intro entries others h hkeys
    rw [externalEntries_perm h hkeys]

def rationals : Exact ℚ := ⟨id, fun n => n.toInt, cmp, fun _ => rfl, fun _ _ => rfl⟩

def twoAndAHalf (_ : ℚ) : Bytes := [0x32, 0x2e, 0x35]

theorem boundary_order_members :
    ((externalOrder rationals (.array [.number 3, .array [.amount (5 / 2)], .null])).map
        (write twoAndAHalf) =
      (externalOrder rationals (.array [.null, .number 3, .array [.amount (5 / 2)]])).map
        (write twoAndAHalf)) ∧
    (externalEntries (.array [.array [.string [0x62], .null], .array [.string [0x61], .null]])).map
        (write twoAndAHalf) =
      (externalEntries (.array [.array [.string [0x61], .null], .array [.string [0x62], .null]])).map
        (write twoAndAHalf) := by
  have h := boundary_order rationals twoAndAHalf
  refine ⟨h.2.2.1 _ _ ?_ ?_, h.2.2.2 _ _ (List.Perm.swap _ _ []) ?_⟩
  · exact @List.perm_append_comm (Form ℚ) [.number 3, .array [.amount (5 / 2)]] [.null]
  · simp [order_eq, reading, lexical, cmp, cmpUsing, itemReadings]
  · intro members hmembers
    simp only [List.mapM_cons, entryOf] at hmembers
    cases hmembers
    decide

end SoutherNative.ExternalOrder
