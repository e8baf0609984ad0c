import SoutherNative.ListLayout
import SoutherNative.Transport

set_option autoImplicit false

/-!
# What the operations over `Int`s are lowered to

An `Int` is a machine word read with a sign. Each operation decides from the words themselves
whether its answer is one an `Int` holds, and ends the run where it is not.
-/
namespace SoutherNative.IntOperations
open Rooms ListLayout Transport

def abortWhereTheSignBitIsSet (status : ℕ) (one other : Word) : Run Unit :=
  let both := one &&& other
  let past := both >>> 63
  abortWhere status (past != 0)

def sum (status : ℕ) (a b : Word) : Run Word := do
  let sum := a + b
  let past := a ^^^ sum
  let also := b ^^^ sum
  abortWhereTheSignBitIsSet status past also
  return sum

def difference (status : ℕ) (a b : Word) : Run Word := do
  let difference := a - b
  let apart := a ^^^ b
  let moved := a ^^^ difference
  abortWhereTheSignBitIsSet status apart moved
  return difference

def negation (status : ℕ) (a : Word) : Run Word := difference status 0 a

def product (status : ℕ) (a b : Word) : Run Word := do
  let aWide := a.signExtend 128
  let bWide := b.signExtend 128
  let wide := aWide * bWide
  let held := wide.setWidth 64
  let back := held.signExtend 128
  abortWhere status (wide != back)
  return held

def srem (dividend divisor : Word) : Run Word :=
  if divisor = 0 then astray else pure (dividend.srem divisor)

def sdiv (dividend divisor : Word) : Run Word :=
  if divisor = 0 ∨ (dividend = BitVec.intMin 64 ∧ divisor = -1) then astray
  else pure (dividend.sdiv divisor)

def floorMod (status : ℕ) (dividend divisor : Word) : Run Word := do
  let byNought := divisor == 0
  abortWhere status byNought
  let truncated ← srem dividend divisor
  let signs := truncated ^^^ divisor
  let apart := signs.slt 0
  let left := truncated != 0
  let moved := apart && left
  let floored := truncated + divisor
  return if moved then floored else truncated

inductive Division
  | quotient | remainder
  deriving DecidableEq

structure Carried where
  case : Case
  held : Option Word

def divisionByZero : Carried := ⟨.language .divisionByZero, none⟩

def whole (value : Word) : Carried := ⟨.primitive .int, some value⟩

def truncatingDivision (status : ℕ) (answering : Division) (dividend divisor : Word) :
    Run Carried :=
  let byNought := divisor == 0
  if byNought then pure divisionByZero
  else do
    let answered ← match answering with
      | .quotient => do
        let smallest := dividend == BitVec.intMin 64
        let minusOne := divisor == -1
        let past := smallest && minusOne
        abortWhere status past
        sdiv dividend divisor
      | .remainder => srem dividend divisor
    return whole answered

/-- Every `Int` from `first` to `last`, both included, and none where `first` is above `last`. -/
def rangeInclusive (status : ℕ) (first last : Word) : Run Pointer := do
  let above := last.slt first
  let span := last - first
  let tooLong := LIST_HOLDS.ule span
  let spans := first.sle last
  let past := spans && tooLong
  abortWhere status past
  let many := span + 1
  let count := if above then 0 else many
  let made ← newList count
  each count fun place => do
    let value := first + place
    store (elementAt made place) (.word value)
  return made

/-- An integer an `Int` holds. -/
def Holds (n : ℤ) : Prop := -2 ^ 63 ≤ n ∧ n < 2 ^ 63

instance (n : ℤ) : Decidable (Holds n) := inferInstanceAs (Decidable (_ ∧ _))

lemma holds_toInt (a : Word) : Holds a.toInt := by
  have least := a.le_toInt
  have most := a.toInt_lt
  constructor
  · norm_num at least ⊢
    exact least
  · norm_num at most ⊢
    exact most

/-- A computation answers an `Int` exactly where there is one to answer, and the run ends with
    `status` where there is none. -/
def Exactly (run : Run Word) (status : ℕ) (exact : Option ℤ) : Prop :=
  ∀ m, match exact with
    | some n => ∃ w, run m = .answered w m ∧ w.toInt = n
    | none => run m = .ended status m

/-- An integer, where an `Int` holds it. -/
def held (n : ℤ) : Option ℤ := if Holds n then some n else none

lemma exactly_of {run : Run Word} {status : ℕ} {exact : ℤ} {past : Bool} {answer : Word}
    (runs : ∀ m, run m = (abortWhere status past >>= fun _ => pure answer) m)
    (decides : past = true ↔ ¬Holds exact) (answers : Holds exact → answer.toInt = exact) :
    Exactly run status (held exact) := by
  intro m
  by_cases inside : Holds exact
  · have kept : past = false := by
      cases passed : past with
      | false => rfl
      | true => exact absurd inside (decides.mp passed)
    rw [held, if_pos inside]
    refine ⟨answer, ?_, answers inside⟩
    rw [runs m, Run.bind_answered (abortWhere_false kept m)]
    rfl
  · rw [held, if_neg inside]
    change run m = _
    rw [runs m, Run.bind_ended (abortWhere_true (decides.mpr inside) m)]

lemma sign_shifted (x : Word) : (x >>> 63 != 0) = x.msb := by
  have place : (x >>> 63).toNat = x.toNat / 2 ^ 63 := by
    rw [BitVec.toNat_ushiftRight, Nat.shiftRight_eq_div_pow]
  have small := x.isLt
  rw [BitVec.msb_eq_decide, Bool.eq_iff_iff, bne_iff_ne, decide_eq_true_iff, ne_eq,
    ← BitVec.toNat_inj, place]
  change ¬(x.toNat / 2 ^ 63 = 0) ↔ _
  omega

lemma signs_set (a b c d : Word) :
    (((a ^^^ b) &&& (c ^^^ d)) >>> 63 != 0) =
      decide ((a.toInt < 0 ↔ ¬b.toInt < 0) ∧ (c.toInt < 0 ↔ ¬d.toInt < 0)) := by
  rw [sign_shifted, BitVec.msb_and, BitVec.msb_xor, BitVec.msb_xor, BitVec.msb_eq_toInt,
    BitVec.msb_eq_toInt, BitVec.msb_eq_toInt, BitVec.msb_eq_toInt]
  by_cases ha : a.toInt < 0 <;> by_cases hb : b.toInt < 0 <;> by_cases hc : c.toInt < 0 <;>
    by_cases hd : d.toInt < 0 <;> simp [ha, hb, hc, hd]

lemma bmod_cases {n : ℤ} (low : -2 ^ 64 ≤ n) (high : n < 2 ^ 64) :
    n.bmod (2 ^ 64) = n ∧ Holds n ∨
    n.bmod (2 ^ 64) = n - 2 ^ 64 ∧ 2 ^ 63 ≤ n ∨
    n.bmod (2 ^ 64) = n + 2 ^ 64 ∧ n < -2 ^ 63 := by
  have near := @Int.bmod_eq_of_le n (2 ^ 64)
  unfold Holds
  by_cases above : 2 ^ 63 ≤ n
  · right
    left
    have shifted : (n - 2 ^ 64).bmod (2 ^ 64) = n.bmod (2 ^ 64) :=
      mod_cast Int.sub_bmod_right n (2 ^ 64)
    refine ⟨?_, above⟩
    rw [← shifted]
    apply Int.bmod_eq_of_le <;> norm_num at * <;> omega
  · by_cases below : n < -2 ^ 63
    · right
      right
      have shifted : (n + 2 ^ 64).bmod (2 ^ 64) = n.bmod (2 ^ 64) :=
        mod_cast Int.add_bmod_right n (2 ^ 64)
      refine ⟨?_, below⟩
      rw [← shifted]
      apply Int.bmod_eq_of_le <;> norm_num at * <;> omega
    · left
      refine ⟨near ?_ ?_, not_lt.mp below, not_le.mp above⟩ <;> norm_num at * <;> omega

lemma sum_exactly (status : ℕ) (a b : Word) :
    Exactly (sum status a b) status (held (a.toInt + b.toInt)) := by
  obtain ⟨leastA, mostA⟩ := holds_toInt a
  obtain ⟨leastB, mostB⟩ := holds_toInt b
  have wraps := bmod_cases (n := a.toInt + b.toInt) (by omega) (by omega)
  rw [← BitVec.toInt_add] at wraps
  apply exactly_of (fun m => rfl)
  · rw [signs_set, decide_eq_true_iff]
    unfold Holds at wraps ⊢
    omega
  · intro inside
    unfold Holds at wraps inside
    omega

lemma difference_exactly (status : ℕ) (a b : Word) :
    Exactly (difference status a b) status (held (a.toInt - b.toInt)) := by
  obtain ⟨leastA, mostA⟩ := holds_toInt a
  obtain ⟨leastB, mostB⟩ := holds_toInt b
  have wraps := bmod_cases (n := a.toInt - b.toInt) (by omega) (by omega)
  rw [← BitVec.toInt_sub] at wraps
  apply exactly_of (fun m => rfl)
  · rw [signs_set, decide_eq_true_iff]
    unfold Holds at wraps ⊢
    omega
  · intro inside
    unfold Holds at wraps inside
    omega

lemma negation_exactly (status : ℕ) (a : Word) :
    Exactly (negation status a) status (held (-a.toInt)) := by
  have subtracts := difference_exactly status 0 a
  rwa [show (0 : Word).toInt = 0 from rfl, zero_sub] at subtracts

lemma wide_toInt (a b : Word) :
    (a.signExtend 128 * b.signExtend 128).toInt = a.toInt * b.toInt := by
  rw [BitVec.toInt_mul, BitVec.toInt_signExtend_of_le (by omega),
    BitVec.toInt_signExtend_of_le (by omega)]
  obtain ⟨leastA, mostA⟩ := holds_toInt a
  obtain ⟨leastB, mostB⟩ := holds_toInt b
  have above : a.toInt * b.toInt ≤ 2 ^ 126 := by nlinarith
  have below : -2 ^ 126 ≤ a.toInt * b.toInt := by nlinarith
  apply Int.bmod_eq_of_le <;> norm_num at * <;> omega

lemma product_exactly (status : ℕ) (a b : Word) :
    Exactly (product status a b) status (held (a.toInt * b.toInt)) := by
  have wide := wide_toInt a b
  have narrowed : ((a.signExtend 128 * b.signExtend 128).setWidth 64).toInt =
      (a.toInt * b.toInt).bmod (2 ^ 64) := by
    rw [BitVec.toInt_setWidth, ← wide, BitVec.toInt_eq_toNat_bmod, Int.bmod_bmod_of_dvd]
    norm_num
  have back : (((a.signExtend 128 * b.signExtend 128).setWidth 64).signExtend 128).toInt =
      (a.toInt * b.toInt).bmod (2 ^ 64) := by
    rw [BitVec.toInt_signExtend_of_le (by omega), narrowed]
  have least := Int.le_bmod (x := a.toInt * b.toInt) (m := 2 ^ 64) (by norm_num)
  have most := Int.bmod_lt (x := a.toInt * b.toInt) (m := 2 ^ 64) (by norm_num)
  have same : Holds (a.toInt * b.toInt) → (a.toInt * b.toInt).bmod (2 ^ 64) = a.toInt * b.toInt := by
    rintro ⟨low, high⟩
    apply Int.bmod_eq_of_le <;> norm_num at * <;> omega
  apply exactly_of (fun m => rfl)
  · rw [bne_iff_ne, ne_eq, ← BitVec.toInt_inj, wide, back]
    constructor
    · intro apart inside
      exact apart (same inside).symm
    · intro outside agree
      apply outside
      rw [agree]
      norm_num at least most
      exact ⟨least, most⟩
  · intro inside
    rw [narrowed]
    exact same inside

lemma toInt_zero_iff (a : Word) : a = 0 ↔ a.toInt = 0 := by
  rw [← BitVec.toInt_inj]
  rfl

lemma srem_answers {dividend divisor : Word} (some_divisor : divisor ≠ 0) (m : Memory) :
    srem dividend divisor m = .answered (dividend.srem divisor) m := by
  unfold srem
  rw [if_neg some_divisor]
  rfl

lemma toInt_srem_eq (dividend divisor : Word) :
    (dividend.srem divisor).toInt = dividend.toInt.tmod divisor.toInt :=
  BitVec.toInt_srem dividend divisor

/-- The remainder floored, from the one truncated: the divisor is added once where the two differ in
    sign and it is not nought. -/
lemma fmod_of_tmod (a b : ℤ) (some_divisor : b ≠ 0) :
    a.fmod b = if (a.tmod b < 0 ↔ ¬b < 0) ∧ a.tmod b ≠ 0 then a.tmod b + b else a.tmod b := by
  have least := Int.emod_nonneg a some_divisor
  have most := Int.emod_lt_abs a some_divisor
  have divides : b ∣ a ↔ a % b = 0 := Int.dvd_iff_emod_eq_zero
  simp only [Int.fmod_eq_emod, Int.tmod_eq_emod, divides]
  generalize a % b = r at least most ⊢
  rcases lt_or_gt_of_ne some_divisor with negative | positive
  · rw [abs_of_neg negative] at most
    have absolute : (b.natAbs : ℤ) = -b := by omega
    simp only [Nat.cast_ite, Nat.cast_zero, absolute]
    split_ifs <;> omega
  · rw [abs_of_pos positive] at most
    have absolute : (b.natAbs : ℤ) = b := by omega
    simp only [Nat.cast_ite, Nat.cast_zero, absolute]
    split_ifs <;> omega

lemma tmod_near (a b : ℤ) (some_divisor : b ≠ 0) : |a.tmod b| < |b| := by
  have least := Int.emod_nonneg a some_divisor
  have most := Int.emod_lt_abs a some_divisor
  have divides : b ∣ a ↔ a % b = 0 := Int.dvd_iff_emod_eq_zero
  have absolute : (b.natAbs : ℤ) = |b| := Int.natCast_natAbs b
  simp only [Int.tmod_eq_emod, divides, Nat.cast_ite, Nat.cast_zero, absolute]
  have positive := abs_pos.mpr some_divisor
  generalize a % b = r at least most ⊢
  rw [abs_lt]
  split <;> omega

lemma floorMod_nought (status : ℕ) (dividend : Word) (m : Memory) :
    floorMod status dividend 0 m = .ended status m :=
  Run.bind_ended (abortWhere_true (by simp) m)

lemma floorMod_answers (status : ℕ) {dividend divisor : Word} (some_divisor : divisor ≠ 0)
    (m : Memory) : ∃ w, floorMod status dividend divisor m = .answered w m ∧
      w.toInt = dividend.toInt.fmod divisor.toInt := by
  have kept : (divisor == 0) = false := by simpa using some_divisor
  have nonzero : divisor.toInt ≠ 0 := by
    rw [ne_eq, ← toInt_zero_iff]
    exact some_divisor
  refine ⟨if (dividend.srem divisor ^^^ divisor).slt 0 && dividend.srem divisor != 0 then
    dividend.srem divisor + divisor else dividend.srem divisor, ?_, ?_⟩
  · unfold floorMod
    rw [Run.bind_answered (abortWhere_false kept m),
      Run.bind_answered (srem_answers some_divisor m)]
    rfl
  · have signs : ((dividend.srem divisor ^^^ divisor).slt 0) =
        decide (dividend.toInt.tmod divisor.toInt < 0 ↔ ¬divisor.toInt < 0) := by
      have msb : (dividend.srem divisor ^^^ divisor).slt 0 =
          (dividend.srem divisor ^^^ divisor).msb := by
        rw [BitVec.msb_eq_toInt]
        rfl
      rw [msb, BitVec.msb_xor, BitVec.msb_eq_toInt, BitVec.msb_eq_toInt, toInt_srem_eq]
      by_cases one : dividend.toInt.tmod divisor.toInt < 0 <;>
        by_cases other : divisor.toInt < 0 <;> simp [one, other]
    have left : (dividend.srem divisor != 0) = decide (dividend.toInt.tmod divisor.toInt ≠ 0) := by
      rw [Bool.eq_iff_iff, bne_iff_ne, decide_eq_true_iff, ← toInt_srem_eq, ne_eq, ne_eq,
        ← toInt_zero_iff]
    rw [fmod_of_tmod _ _ nonzero, signs, left]
    simp only [Bool.and_eq_true, decide_eq_true_iff]
    split
    · rename_i apart
      rw [BitVec.toInt_add, toInt_srem_eq]
      have near := tmod_near dividend.toInt divisor.toInt nonzero
      obtain ⟨least, most⟩ := holds_toInt divisor
      rw [abs_lt] at near
      rcases le_or_gt 0 divisor.toInt with positive | negative
      · rw [abs_of_nonneg positive] at near
        apply Int.bmod_eq_of_le <;> norm_num at * <;> omega
      · rw [abs_of_neg negative] at near
        apply Int.bmod_eq_of_le <;> norm_num at * <;> omega
    · exact toInt_srem_eq dividend divisor

/-- A truncating division by nought is a case of the answer, whichever of the two it answers. -/
lemma truncatingDivision_nought (status : ℕ) (answering : Division) (dividend : Word)
    (m : Memory) :
    truncatingDivision status answering dividend 0 m = .answered divisionByZero m := rfl

lemma truncatingRemainder_answers (status : ℕ) (dividend : Word) {divisor : Word}
    (some_divisor : divisor ≠ 0) (m : Memory) :
    ∃ w, truncatingDivision status .remainder dividend divisor m = .answered (whole w) m ∧
      w.toInt = dividend.toInt.tmod divisor.toInt := by
  refine ⟨_, ?_, toInt_srem_eq dividend divisor⟩
  have kept : (divisor == 0) = false := by simpa using some_divisor
  unfold truncatingDivision
  simp only [kept, Bool.false_eq_true, if_false]
  rw [Run.bind_answered (srem_answers some_divisor m)]
  rfl

lemma truncatingQuotient_past (status : ℕ) (m : Memory) :
    truncatingDivision status .quotient (BitVec.intMin 64) (-1) m = .ended status m := by
  rfl

lemma truncatingQuotient_answers (status : ℕ) {dividend divisor : Word}
    (some_divisor : divisor ≠ 0) (inside : ¬(dividend = BitVec.intMin 64 ∧ divisor = -1))
    (m : Memory) :
    ∃ w, truncatingDivision status .quotient dividend divisor m = .answered (whole w) m ∧
      w.toInt = dividend.toInt.tdiv divisor.toInt := by
  refine ⟨dividend.sdiv divisor, ?_, ?_⟩
  · have kept : (divisor == 0) = false := by simpa using some_divisor
    have held : (dividend == BitVec.intMin 64 && divisor == -1) = false := by
      rw [Bool.eq_false_iff]
      intro both
      apply inside
      simpa using both
    have divides : sdiv dividend divisor m = .answered (dividend.sdiv divisor) m := by
      unfold sdiv
      rw [if_neg]
      · rfl
      · rintro (zero | both)
        · exact some_divisor zero
        · exact inside both
    unfold truncatingDivision
    simp only [kept, Bool.false_eq_true, if_false, held]
    rw [Run.bind_answered (abortWhere_false rfl m), Run.bind_answered divides]
    rfl
  · apply BitVec.toInt_sdiv_of_ne_or_ne
    rw [← not_and_or]
    exact inside

/-- The `Int`s from `first` on, so many of them. -/
def intsFrom (first : Word) (count : ℕ) : List Slot :=
  (List.range count).map fun i : ℕ => .word (BitVec.ofInt 64 (first.toInt + i))

/-- How many `Int`s a range lists. -/
def spanned (first last : Word) : ℕ := (last.toInt - first.toInt + 1).toNat

lemma span_toNat {first last : Word} (ordered : first.toInt ≤ last.toInt) :
    ((last - first).toNat : ℤ) = last.toInt - first.toInt := by
  have one := first.isLt
  have other := last.isLt
  simp only [BitVec.toInt_eq_toNat_cond, BitVec.toNat_sub] at *
  omega

lemma span_past {first last : Word} :
    (first.sle last && LIST_HOLDS.ule (last - first)) =
      decide (LIST_HOLDS.toInt < last.toInt - first.toInt + 1) := by
  have most : LIST_HOLDS.toInt = 2147483647 := by decide
  have word : LIST_HOLDS.toNat = 2147483647 := by decide
  rw [most, Bool.eq_iff_iff, Bool.and_eq_true, decide_eq_true_iff, BitVec.sle_iff_toInt_le,
    BitVec.ule_eq_decide, decide_eq_true_iff, word]
  constructor
  · rintro ⟨ordered, long⟩
    have exact := span_toNat ordered
    omega
  · intro long
    have ordered : first.toInt ≤ last.toInt := by omega
    have exact := span_toNat ordered
    exact ⟨ordered, by omega⟩

lemma span_count {first last : Word} :
    (if last.slt first then 0 else last - first + 1) = BitVec.ofNat 64 (spanned first last) := by
  unfold spanned
  by_cases above : last.toInt < first.toInt
  · have none : (last.toInt - first.toInt + 1).toNat = 0 := by omega
    rw [if_pos (by simpa [BitVec.slt] using above), none]
    rfl
  · have exact := span_toNat (not_lt.mp above)
    have count : (last.toInt - first.toInt + 1).toNat = (last - first).toNat + 1 := by omega
    rw [if_neg (by simpa [BitVec.slt] using not_lt.mp above), count, BitVec.ofNat_add,
      BitVec.ofNat_toNat, BitVec.setWidth_eq]
    rfl

lemma range_value (first : Word) (i : ℕ) :
    first + BitVec.ofNat 64 i = BitVec.ofInt 64 (first.toInt + i) := by
  rw [BitVec.ofInt_add, BitVec.ofInt_toInt, BitVec.ofInt_natCast]

lemma rangeInclusive_past (status : ℕ) {first last : Word}
    (long : LIST_HOLDS.toInt < last.toInt - first.toInt + 1) (m : Memory) :
    rangeInclusive status first last m = .ended status m := by
  unfold rangeInclusive
  exact Run.bind_ended (abortWhere_true (by rw [span_past]; exact decide_eq_true long) m)

lemma fill_spec {m : Memory} {p : Pointer} {count : ℕ} (roomy : Roomy m p count)
    (value : ℕ → Slot) (body : Word → Run Unit)
    (writes : ∀ i < count, body (BitVec.ofNat 64 i) = store (elementAt p (BitVec.ofNat 64 i)) (value i)) :
    ∃ m', each (BitVec.ofNat 64 count) body m = .answered () m' ∧
      Keeps (fun r => r = p.room) m m' ∧ m'.slot p.room 0 = m.slot p.room 0 ∧
      Elements m' p ((List.range count).map value) := by
  have short := roomy.short
  unfold longest at short
  have loop := each_rule (n := count) (by omega) body
    (fun done m' => Keeps (fun r => r = p.room) m m' ∧ m'.slot p.room 0 = m.slot p.room 0 ∧
      ∀ i < done, m'.slot p.room (i + 1) = some (value i))
    ?_ (m := m) ⟨Keeps.refl _ _, rfl, by simp⟩
  · obtain ⟨m', ran, keeps, front, filled⟩ := loop
    refine ⟨m', ran, keeps, front, ?_⟩
    intro i x stands
    obtain ⟨inside, rfl⟩ := List.getElem?_eq_some_iff.mp stands
    simp only [List.length_map, List.length_range] at inside
    rw [filled i inside]
    simp
  · rintro i inside m' ⟨keeps, front, filled⟩
    refine ⟨m'.written p.room (i + 1) (value i), ?_, ?_, ?_, ?_⟩
    · rw [writes i inside]
      exact (roomy.keeps keeps).store_element inside (value i)
    · refine keeps.trans ?_
      apply Keeps.written
      rfl
    · rw [Memory.written_other _ _ (Or.inr (by omega))]
      exact front
    · intro j before
      by_cases last : j = i
      · subst last
        rw [Memory.written_same]
      · rw [Memory.written_other _ _ (Or.inr (by omega))]
        exact filled j (by omega)

lemma rangeInclusive_lists (status : ℕ) {first last : Word}
    (short : ¬LIST_HOLDS.toInt < last.toInt - first.toInt + 1) (m : Memory) :
    ∃ p m', rangeInclusive status first last m = .answered p m' ∧
      IsList m' p (intsFrom first (spanned first last)) ∧ Keeps (fun _ => False) m m' := by
  have most : LIST_HOLDS.toInt = 2147483647 := by decide
  have few : spanned first last ≤ longest := by
    unfold spanned longest
    omega
  obtain ⟨t, made, roomy, taken, length, kept⟩ := newList_spec few m
  obtain ⟨m', ran, keeps, front, elements⟩ := fill_spec roomy
    (fun i => Slot.word (BitVec.ofInt 64 (first.toInt + i)))
    (fun place => store (elementAt ⟨m.taken, 0⟩ place) (.word (first + place)))
    (fun i _ => by rw [range_value])
  refine ⟨⟨m.taken, 0⟩, m', ?_, ⟨?_, ?_, elements⟩, ?_⟩
  · unfold rangeInclusive
    rw [Run.bind_answered (abortWhere_false (by rw [span_past]; exact decide_eq_false short) m)]
    simp only [span_count]
    rw [Run.bind_answered made, Run.bind_answered ran]
    rfl
  · have same : (intsFrom first (spanned first last)).length = spanned first last := by
      simp [intsFrom]
    rw [same]
    exact roomy.keeps keeps
  · rw [front, length]
    simp [intsFrom]
  · have before := kept fun _ => False
    refine ⟨before.taken.trans keeps.taken, ?_, ?_⟩
    · intro r inside
      rw [keeps.size r (by omega), before.size r inside]
    · intro r inside _ i
      rw [keeps.slot r (by omega) (by simp; omega), before.slot r inside (fun no => no) i]

/-- Each operation over `Int`s answers the exact integer result, and the run ends exactly where
    there is none. -/
theorem int_operations_exact (status : ℕ) (a b : Word) :
    Exactly (sum status a b) status (held (a.toInt + b.toInt)) ∧
    Exactly (difference status a b) status (held (a.toInt - b.toInt)) ∧
    Exactly (negation status a) status (held (-a.toInt)) ∧
    Exactly (product status a b) status (held (a.toInt * b.toInt)) ∧
    Exactly (floorMod status a b) status
      (if b.toInt = 0 then none else some (a.toInt.fmod b.toInt)) ∧
    (∀ m answering, b.toInt = 0 →
      truncatingDivision status answering a b m = .answered divisionByZero m) ∧
    (∀ m, b.toInt ≠ 0 → a.toInt = -2 ^ 63 ∧ b.toInt = -1 →
      truncatingDivision status .quotient a b m = .ended status m) ∧
    (∀ m, b.toInt ≠ 0 → ∃ r,
      truncatingDivision status .remainder a b m = .answered (whole r) m ∧
      |r.toInt| < |b.toInt| ∧ (0 ≤ a.toInt → 0 ≤ r.toInt) ∧ (a.toInt ≤ 0 → r.toInt ≤ 0) ∧
      (¬(a.toInt = -2 ^ 63 ∧ b.toInt = -1) → ∃ q,
        truncatingDivision status .quotient a b m = .answered (whole q) m ∧
        a.toInt = b.toInt * q.toInt + r.toInt)) ∧
    ∀ m, if LIST_HOLDS.toInt < b.toInt - a.toInt + 1 then
        rangeInclusive status a b m = .ended status m
      else ∃ p m', rangeInclusive status a b m = .answered p m' ∧
        IsList m' p (intsFrom a (spanned a b)) ∧ Keeps (fun _ => False) m m' := by
  have smallest : ∀ w : Word, w.toInt = -2 ^ 63 ↔ w = BitVec.intMin 64 := by
    intro w
    rw [← BitVec.toInt_inj]
    rfl
  have minus_one : ∀ w : Word, w.toInt = -1 ↔ w = -1 := by
    intro w
    rw [← BitVec.toInt_inj]
    rfl
  refine ⟨sum_exactly status a b, difference_exactly status a b, negation_exactly status a,
    product_exactly status a b, ?_, ?_, ?_, ?_, ?_⟩
  · intro m
    by_cases zero : b.toInt = 0
    · rw [if_pos zero, (toInt_zero_iff b).mpr zero]
      exact floorMod_nought status a m
    · rw [if_neg zero]
      exact floorMod_answers status (fun same => zero ((toInt_zero_iff b).mp same)) m
  · intro m answering zero
    rw [(toInt_zero_iff b).mpr zero]
    exact truncatingDivision_nought status answering a m
  · rintro m - ⟨least, one⟩
    rw [(smallest a).mp least, (minus_one b).mp one]
    exact truncatingQuotient_past status m
  · intro m some_divisor
    have nonzero : b ≠ 0 := fun same => some_divisor ((toInt_zero_iff b).mp same)
    obtain ⟨r, answers, remainder⟩ := truncatingRemainder_answers status a nonzero m
    refine ⟨r, answers, ?_, ?_, ?_, ?_⟩
    · rw [remainder]
      exact tmod_near a.toInt b.toInt some_divisor
    · intro positive
      rw [remainder]
      exact Int.tmod_nonneg b.toInt positive
    · intro negative
      have mirrored := Int.tmod_nonneg b.toInt (neg_nonneg.mpr negative)
      rw [Int.neg_tmod] at mirrored
      rw [remainder]
      omega
    · intro inside
      rw [smallest, minus_one] at inside
      obtain ⟨q, divides, quotient⟩ := truncatingQuotient_answers status nonzero inside m
      refine ⟨q, divides, ?_⟩
      rw [remainder, quotient]
      exact (Int.mul_tdiv_add_tmod a.toInt b.toInt).symm
  · intro m
    split
    · rename_i long
      exact rangeInclusive_past status long m
    · rename_i short
      exact rangeInclusive_lists status short m

end SoutherNative.IntOperations
