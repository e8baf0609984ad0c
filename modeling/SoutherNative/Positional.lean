import SoutherNative.Lexicographic

set_option autoImplicit false

/-!
# Digits after the point

What a run of digits is worth after the point of a base, and that two such runs with no nought at
their ends are ordered as texts are. A number is then ordered by where its first digit stands, and
by its digits only where two stand alike.
-/
namespace SoutherNative.Positional

open Lexicographic

variable {b : ℕ}

def fraction (b : ℕ) : List ℕ → ℚ
  | [] => 0
  | d :: ds => (d + fraction b ds) / b

theorem fraction_nonneg (ds : List ℕ) : 0 ≤ fraction b ds := by
  induction ds with
  | nil => exact le_refl 0
  | cons d ds ih =>
    rw [fraction]
    positivity

theorem fraction_lt_one (hb : 0 < b) {ds : List ℕ} (hds : ∀ d ∈ ds, d < b) :
    fraction b ds < 1 := by
  induction ds with
  | nil => exact zero_lt_one
  | cons d ds ih =>
    have hlt := ih (fun e he => hds e (List.mem_cons_of_mem _ he))
    have hd : (d : ℚ) + 1 ≤ b := by exact_mod_cast hds d List.mem_cons_self
    have hpos : (0 : ℚ) < b := by exact_mod_cast hb
    rw [fraction, div_lt_one hpos]
    linarith

def Trimmed (ds : List ℕ) : Prop := ∀ h : ds ≠ [], ds.getLast h ≠ 0

theorem Trimmed.tail {d : ℕ} {ds : List ℕ} (h : Trimmed (d :: ds)) : Trimmed ds := by
  intro hne
  have hlast := h (List.cons_ne_nil _ _)
  rwa [List.getLast_cons hne] at hlast

theorem fraction_pos (hb : 0 < b) {ds : List ℕ} (hne : ds ≠ []) (h : Trimmed ds) :
    0 < fraction b ds := by
  have hpos : (0 : ℚ) < b := by exact_mod_cast hb
  induction ds with
  | nil => exact absurd rfl hne
  | cons d ds ih =>
    rw [fraction]
    apply div_pos _ hpos
    by_cases hds : ds = []
    · subst hds
      have hd : 0 < d := Nat.pos_of_ne_zero (h (List.cons_ne_nil _ _))
      have hd' : (0 : ℚ) < d := by exact_mod_cast hd
      rw [fraction, add_zero]
      exact hd'
    · have hrest := ih hds h.tail
      have hd : (0 : ℚ) ≤ d := Nat.cast_nonneg d
      linarith

theorem fraction_noughts (ds : List ℕ) (k : ℕ) :
    fraction b (ds ++ List.replicate k 0) = fraction b ds := by
  induction ds with
  | nil =>
    induction k with
    | zero => rfl
    | succ k ih =>
      have hnil : fraction b [] = 0 := rfl
      rw [List.nil_append, hnil] at ih ⊢
      rw [List.replicate_succ, fraction, ih, Nat.cast_zero, add_zero, zero_div]
  | cons d ds ih => rw [List.cons_append, fraction, ih, fraction]

/-- Trimmed digits are ordered after the point as texts are. -/
theorem cmp_fraction (hb : 0 < b) {ds es : List ℕ} (hds : ∀ d ∈ ds, d < b) (hes : ∀ e ∈ es, e < b)
    (htds : Trimmed ds) (htes : Trimmed es) :
    cmp (fraction b ds) (fraction b es) = lexical ds es := by
  have hpos : (0 : ℚ) < b := by exact_mod_cast hb
  induction ds generalizing es with
  | nil =>
    cases es with
    | nil => exact cmp_self_eq_eq _
    | cons e es => exact (cmp_eq_lt_iff _ _).mpr (fraction_pos hb (List.cons_ne_nil _ _) htes)
  | cons d ds ih =>
    cases es with
    | nil => exact (cmp_eq_gt_iff _ _).mpr (fraction_pos hb (List.cons_ne_nil _ _) htds)
    | cons e es =>
      have hds' := fun x hx => hds x (List.mem_cons_of_mem _ hx)
      have hes' := fun x hx => hes x (List.mem_cons_of_mem _ hx)
      have hnd := fraction_nonneg (b := b) ds
      have hne := fraction_nonneg (b := b) es
      have hltd := fraction_lt_one hb hds'
      have hlte := fraction_lt_one hb hes'
      rw [fraction, fraction, lexical]
      rcases lt_trichotomy d e with hlt | rfl | hgt
      · have hstep : (d : ℚ) + 1 ≤ e := by exact_mod_cast hlt
        rw [(cmp_eq_lt_iff d e).mpr hlt, (cmp_eq_lt_iff _ _).mpr]
        · rfl
        · exact div_lt_div_of_pos_right (by linarith) hpos
      · rw [cmp_self_eq_eq, ← ih hds' hes' htds.tail htes.tail, div_eq_mul_inv, div_eq_mul_inv,
          cmp_mul_pos_right (inv_pos.mpr hpos), cmp_add_left]
        rfl
      · have hstep : (e : ℚ) + 1 ≤ d := by exact_mod_cast hgt
        rw [(cmp_eq_gt_iff d e).mpr hgt, (cmp_eq_gt_iff _ _).mpr]
        · rfl
        · exact div_lt_div_of_pos_right (by linarith) hpos

/-- A run whose first digit is not nought is at least a unit of its first place. -/
theorem inv_le_fraction (hb : 0 < b) {d : ℕ} (ds : List ℕ) (hd : d ≠ 0) :
    (b : ℚ)⁻¹ ≤ fraction b (d :: ds) := by
  have hpos : (0 : ℚ) < b := by exact_mod_cast hb
  have hone : (1 : ℚ) ≤ d := by exact_mod_cast Nat.pos_of_ne_zero hd
  have hrest := fraction_nonneg (b := b) ds
  rw [fraction, inv_eq_one_div]
  apply div_le_div_of_nonneg_right _ hpos.le
  linarith

/-- Numbers are ordered by where their first digits stand, and then by the digits. -/
theorem cmp_scaled (hb : 1 < b) {x y : ℚ} (hx : (b : ℚ)⁻¹ ≤ x ∧ x < 1) (hy : (b : ℚ)⁻¹ ≤ y ∧ y < 1)
    (m n : ℤ) :
    cmp (x * (b : ℚ) ^ m) (y * (b : ℚ) ^ n) = (cmp m n).then (cmp x y) := by
  have hb' : (1 : ℚ) < b := by exact_mod_cast hb
  have hpos : (0 : ℚ) < b := by linarith
  have below : ∀ {x y : ℚ} {m n : ℤ}, (b : ℚ)⁻¹ ≤ y → x < 1 → m < n →
      x * (b : ℚ) ^ m < y * (b : ℚ) ^ n := by
    intro x y m n hy hx hmn
    calc x * (b : ℚ) ^ m < 1 * (b : ℚ) ^ m := by
          exact mul_lt_mul_of_pos_right hx (zpow_pos hpos m)
      _ = (b : ℚ) ^ m := one_mul _
      _ ≤ (b : ℚ) ^ (n - 1) := zpow_le_zpow_right₀ hb'.le (by omega)
      _ = (b : ℚ)⁻¹ * (b : ℚ) ^ n := by rw [zpow_sub_one₀ hpos.ne', mul_comm]
      _ ≤ y * (b : ℚ) ^ n := mul_le_mul_of_nonneg_right hy (zpow_pos hpos n).le
  rcases lt_trichotomy m n with hlt | rfl | hgt
  · rw [(cmp_eq_lt_iff m n).mpr hlt]
    exact (cmp_eq_lt_iff _ _).mpr (below hy.1 hx.2 hlt)
  · rw [cmp_self_eq_eq, cmp_mul_pos_right (zpow_pos hpos m)]
    rfl
  · rw [(cmp_eq_gt_iff m n).mpr hgt]
    exact (cmp_eq_gt_iff _ _).mpr (below hx.1 hy.2 hgt)

end SoutherNative.Positional
