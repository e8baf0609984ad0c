import Mathlib

set_option autoImplicit false

/-!
# Words as sets of small numbers

A word of `w` bits as the set of the positions that are set in it, listed ascending, and how many
of them stand below a given one. An array holding one thing for each member keeps the thing for a
member at its rank; `split` says where that is and what adding and dropping a member do to the list.
-/
namespace SoutherNative.Bitmap

variable {w : ℕ}

def digits (x : BitVec w) : List ℕ := (List.range w).filter (x.getLsbD ·)

def countOnes (x : BitVec w) : ℕ := (digits x).length

def bit (d : ℕ) : BitVec w := 1#w <<< d

def rank (x b : BitVec w) : ℕ := countOnes (x &&& (b - 1#w))

theorem mem_digits {x : BitVec w} {d : ℕ} : d ∈ digits x ↔ x.getLsbD d = true := by
  simp only [digits, List.mem_filter, List.mem_range, and_iff_right_iff_imp]
  exact BitVec.lt_of_getLsbD

theorem digits_sorted (x : BitVec w) : (digits x).Pairwise (· < ·) :=
  List.pairwise_lt_range.filter _

theorem getLsbD_bit {d i : ℕ} (hd : d < w) : (bit d : BitVec w).getLsbD i = decide (i = d) := by
  simp only [bit, BitVec.getLsbD_shiftLeft, BitVec.getLsbD_one]
  by_cases h : i = d
  · subst h
    simp [hd]
    omega
  · simp [h]
    omega

theorem and_bit_eq_zero {x : BitVec w} {d : ℕ} (hd : d < w) :
    x &&& bit d = 0#w ↔ x.getLsbD d = false := by
  constructor
  · intro h
    have := congrArg (BitVec.getLsbD · d) h
    simpa [getLsbD_bit hd] using this
  · intro h
    apply BitVec.eq_of_getLsbD_eq
    intro i hi
    rw [BitVec.getLsbD_and, getLsbD_bit hd, BitVec.getLsbD_zero]
    by_cases hid : i = d
    · rw [hid, h, Bool.false_and]
    · simp [hid]

theorem toNat_bit {d : ℕ} (hd : d < w) : (bit d : BitVec w).toNat = 2 ^ d := by
  have hpow : 2 ^ d < 2 ^ w := Nat.pow_lt_pow_right (by decide) hd
  have hw : 1 < 2 ^ w := by
    have := Nat.pow_lt_pow_right (a := 2) (by decide) (show 0 < w by omega)
    simpa using this
  simp [bit, BitVec.toNat_shiftLeft, Nat.shiftLeft_eq, Nat.mod_eq_of_lt hw,
    Nat.mod_eq_of_lt hpow]

theorem bit_lt_bit {d e : ℕ} (hd : d < w) (he : e < w) :
    (bit d : BitVec w) < bit e ↔ d < e := by
  rw [BitVec.lt_def, toNat_bit hd, toNat_bit he]
  exact Nat.pow_lt_pow_iff_right (by decide)

theorem getLsbD_bit_sub_one {d i : ℕ} (hd : d < w) :
    ((bit d : BitVec w) - 1#w).getLsbD i = decide (i < d) := by
  have hone : 0 < 2 ^ d := Nat.two_pow_pos d
  have hw : 1 < 2 ^ w := by
    have := Nat.pow_lt_pow_right (a := 2) (by decide) (show 0 < w by omega)
    simpa using this
  have hval : ((bit d : BitVec w) - 1#w).toNat = 2 ^ d - 1 := by
    have hbit := toNat_bit hd
    have hle : (1#w : BitVec w) ≤ bit d := by
      rw [BitVec.le_def, hbit, BitVec.toNat_ofNat, Nat.mod_eq_of_lt hw]
      exact hone
    rw [BitVec.toNat_sub_of_le hle, hbit, BitVec.toNat_ofNat, Nat.mod_eq_of_lt hw]
  rw [← BitVec.testBit_toNat, hval, Nat.testBit_two_pow_sub_one]

theorem range_split {d : ℕ} (hd : d < w) :
    List.range w = List.range d ++ d :: List.range' (d + 1) (w - (d + 1)) := by
  have h : w = d + 1 + (w - (d + 1)) := by omega
  conv_lhs => rw [h]
  rw [List.range_eq_range', List.range_eq_range', ← List.range'_append_1]
  simp [List.range'_concat]

/-- The positions below `d`, and those above it. -/
def below (x : BitVec w) (d : ℕ) : List ℕ := (List.range d).filter (x.getLsbD ·)

def above (x : BitVec w) (d : ℕ) : List ℕ :=
  (List.range' (d + 1) (w - (d + 1))).filter (x.getLsbD ·)

theorem rank_eq {x : BitVec w} {d : ℕ} (hd : d < w) : rank x (bit d) = (below x d).length := by
  have hpoint : ∀ i, (x &&& (bit d - 1#w)).getLsbD i = (x.getLsbD i && decide (i < d)) := by
    intro i
    rw [BitVec.getLsbD_and, getLsbD_bit_sub_one hd]
  simp only [rank, countOnes, digits, below, hpoint]
  rw [range_split hd, List.filter_append, List.filter_cons]
  have hlow : (List.range d).filter (fun i => x.getLsbD i && decide (i < d)) =
      (List.range d).filter (x.getLsbD ·) := by
    apply List.filter_congr
    intro i hi
    simp [List.mem_range.mp hi]
  have hhigh : (List.range' (d + 1) (w - (d + 1))).filter
      (fun i => x.getLsbD i && decide (i < d)) = [] := by
    apply List.filter_eq_nil_iff.mpr
    intro i hi
    have := (List.mem_range'_1.mp hi).1
    simp
    omega
  rw [hlow, hhigh]
  simp

theorem digits_eq {x : BitVec w} {d : ℕ} (hd : d < w) : digits x =
    below x d ++ (if x.getLsbD d = true then d :: above x d else above x d) := by
  rw [digits, range_split hd, List.filter_append, List.filter_cons]
  rfl

theorem below_congr {x y : BitVec w} {d : ℕ} (h : ∀ i, i ≠ d → x.getLsbD i = y.getLsbD i) :
    below x d = below y d := by
  apply List.filter_congr
  intro i hi
  exact h i (by have := List.mem_range.mp hi; omega)

theorem above_congr {x y : BitVec w} {d : ℕ} (h : ∀ i, i ≠ d → x.getLsbD i = y.getLsbD i) :
    above x d = above y d := by
  apply List.filter_congr
  intro i hi
  exact h i (by have := (List.mem_range'_1.mp hi).1; omega)

/-- The digits with `d` set: between those below it and those above. -/
theorem digits_of_set {x : BitVec w} {d : ℕ} (h : x.getLsbD d = true) :
    digits x = below x d ++ d :: above x d := by
  rw [digits_eq (BitVec.lt_of_getLsbD h), if_pos h]

theorem digits_of_clear {x : BitVec w} {d : ℕ} (hd : d < w) (h : x.getLsbD d = false) :
    digits x = below x d ++ above x d := by
  rw [digits_eq hd, if_neg (by simp [h])]

theorem digits_or_bit (x : BitVec w) {d : ℕ} (hd : d < w) :
    digits (x ||| bit d) = below x d ++ d :: above x d := by
  have hset : (x ||| bit d).getLsbD d = true := by simp [getLsbD_bit hd]
  have hother : ∀ i, i ≠ d → (x ||| bit d).getLsbD i = x.getLsbD i := by
    intro i hi
    simp [getLsbD_bit hd, hi]
  rw [digits_of_set hset, below_congr hother, above_congr hother]

theorem digits_and_not_bit (x : BitVec w) {d : ℕ} (hd : d < w) :
    digits (x &&& ~~~(bit d)) = below x d ++ above x d := by
  have hclear : (x &&& ~~~(bit d)).getLsbD d = false := by simp [getLsbD_bit hd]
  have hother : ∀ i, i ≠ d → (x &&& ~~~(bit d)).getLsbD i = x.getLsbD i := by
    intro i hi
    by_cases hiw : i < w
    · rw [BitVec.getLsbD_and, BitVec.getLsbD_not, getLsbD_bit hd]
      simp only [hiw, hi, decide_true, decide_false, Bool.not_false, Bool.and_self, Bool.and_true]
    · simp [BitVec.getLsbD_of_ge _ _ (Nat.not_lt.mp hiw)]
  rw [digits_of_clear hd hclear, below_congr hother, above_congr hother]

theorem digits_bit {d : ℕ} (hd : d < w) : digits (bit d : BitVec w) = [d] := by
  have hzero : digits (0#w) = [] := by simp [digits]
  have h := digits_or_bit (0#w) hd
  have hclear := digits_of_clear hd (show (0#w).getLsbD d = false by simp)
  rw [hzero] at hclear
  obtain ⟨hb, ha⟩ := List.append_eq_nil_iff.mp hclear.symm
  rwa [BitVec.zero_or, hb, ha] at h

theorem digits_eq_nil {x : BitVec w} : digits x = [] ↔ x = 0#w := by
  constructor
  · intro h
    apply BitVec.eq_of_getLsbD_eq
    intro i hi
    by_contra hne
    have : i ∈ digits x := mem_digits.mpr (by simpa using hne)
    simp [h] at this
  · rintro rfl
    simp [digits]

theorem bit_injective {d e : ℕ} (hd : d < w) (he : e < w) (h : (bit d : BitVec w) = bit e) :
    d = e := by
  have := congrArg digits h
  rw [digits_bit hd, digits_bit he] at this
  exact (List.cons.inj this).1

theorem digits_two {d e : ℕ} (hde : d < e) (he : e < w) :
    digits (bit d ||| bit e : BitVec w) = [d, e] := by
  have hd : d < w := by omega
  have hclear : (bit d : BitVec w).getLsbD e = false := by
    rw [getLsbD_bit hd]
    simp
    omega
  have hone := digits_of_clear he hclear
  have hmem : d ∈ below (bit d : BitVec w) e := by
    simp [below, hde, getLsbD_bit hd]
  rw [digits_bit hd] at hone
  rw [digits_or_bit _ he]
  cases hb : below (bit d : BitVec w) e with
  | nil => simp [hb] at hmem
  | cons i is =>
    rw [hb, List.cons_append] at hone
    obtain ⟨rfl, hrest⟩ := List.cons.inj hone
    obtain ⟨rfl, ha⟩ := List.append_eq_nil_iff.mp hrest.symm
    rw [ha]
    rfl

end SoutherNative.Bitmap
