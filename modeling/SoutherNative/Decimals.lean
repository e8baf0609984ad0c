import SoutherNative.Positional

set_option autoImplicit false

/-!
# A decimal a Rust host holds

The integer of a decimal as text and its scale, and how two are ordered without forming either
number: by sign, by where the first digit stands and by the digits with the noughts at their end
cut. That is the order of the integers over ten to their scales.
-/
namespace SoutherNative.Decimals

open Lexicographic Positional

def Natural (ds : List Char) : Prop :=
  (∀ c ∈ ds, c.isDigit = true) ∧ ∃ c rest, ds = c :: rest ∧ c ≠ '0'

/-- An integer as it is kept: nought, or digits with no leading nought, a `-` before them or not. -/
def Kept (text : List Char) : Prop :=
  text = ['0'] ∨ Natural text ∨ ∃ ds, text = '-' :: ds ∧ Natural ds

structure Decimal where
  unscaled : List Char
  scale : Int32
  kept : Kept unscaled

/-- An integer a `Decimal` cannot have, as it was written. -/
structure NotADecimal where
  written : List Char
  deriving DecidableEq

/-- `unscaled.strip_prefix('-')`: whether there was one, and what is left. -/
def stripped : List Char → Bool × List Char
  | '-' :: digits => (true, digits)
  | digits => (false, digits)

/-- What `Decimal::new` keeps of digits and a sign. -/
def normal (negative : Bool) (digits : List Char) : List Char :=
  match (digits.dropWhile (· == '0')).isEmpty, negative with
  | true, _ => ['0']
  | false, true => '-' :: digits.dropWhile (· == '0')
  | false, false => digits.dropWhile (· == '0')

theorem natural_dropWhile {digits : List Char} (h : ∀ c ∈ digits, c.isDigit = true)
    (hne : digits.dropWhile (· == '0') ≠ []) : Natural (digits.dropWhile (· == '0')) := by
  constructor
  · intro c hc
    exact h c ((List.dropWhile_sublist _).mem hc)
  · obtain ⟨c, rest, hrest⟩ := List.exists_cons_of_ne_nil hne
    have hhead := List.head_dropWhile_not (· == '0') hne
    simp only [hrest, List.head_cons, beq_eq_false_iff_ne] at hhead
    exact ⟨c, rest, hrest, hhead⟩

theorem kept_normal (negative : Bool) {digits : List Char}
    (h : ∀ c ∈ digits, c.isDigit = true) : Kept (normal negative digits) := by
  unfold normal
  split
  · exact .inl rfl
  · next hempty =>
    have hnatural := natural_dropWhile h (List.isEmpty_eq_false_iff.mp hempty)
    exact .inr (.inr ⟨_, rfl, hnatural⟩)
  · next hempty =>
    have hnatural := natural_dropWhile h (List.isEmpty_eq_false_iff.mp hempty)
    exact .inr (.inl hnatural)

def Digits (digits : List Char) : Prop := digits ≠ [] ∧ ∀ c ∈ digits, c.isDigit = true

instance (digits : List Char) : Decidable (Digits digits) :=
  inferInstanceAs (Decidable (digits ≠ [] ∧ ∀ c ∈ digits, c.isDigit = true))

/-- `Decimal::new`. -/
def Decimal.new (unscaled : List Char) (scale : Int32) : Except NotADecimal Decimal :=
  if h : Digits (stripped unscaled).2 then
    .ok ⟨normal (stripped unscaled).1 (stripped unscaled).2, scale, kept_normal _ h.2⟩
  else .error ⟨unscaled⟩

/-- `integer.to_string()`. -/
def toText (integer : ℤ) : List Char :=
  if integer < 0 then '-' :: Nat.toDigits 10 integer.natAbs else Nat.toDigits 10 integer.natAbs

theorem natural_toDigits {n : ℕ} (hn : 0 < n) : Natural (Nat.toDigits 10 n) := by
  constructor
  · intro c hc
    exact Nat.isDigit_of_mem_toDigits (by decide) (by decide) hc
  · induction n using Nat.strong_induction_on with
    | _ n ih =>
      by_cases hlt : n < 10
      · rw [Nat.toDigits_of_lt_base hlt]
        refine ⟨_, _, rfl, ?_⟩
        interval_cases n <;> decide
      · obtain ⟨c, rest, hrest, hc⟩ := ih (n / 10) (by omega) (by omega)
        rw [Nat.toDigits_of_base_le (by decide) (by omega), hrest]
        exact ⟨c, _, rfl, hc⟩

theorem kept_toText (integer : ℤ) : Kept (toText integer) := by
  rw [toText]
  split_ifs with hneg
  · exact .inr (.inr ⟨_, rfl, natural_toDigits (by omega)⟩)
  · by_cases hzero : integer = 0
    · rw [hzero]
      exact .inl rfl
    · exact .inr (.inl (natural_toDigits (by omega)))

/-- `Decimal::of`, of an `i128`. -/
def Decimal.of (integer : BitVec 128) (scale : Int32) : Decimal :=
  ⟨toText integer.toInt, scale, kept_toText _⟩

/-- Whether a number is an `i64`. -/
def isI64 (n : ℤ) : Bool := decide (-2 ^ 63 ≤ n ∧ n < 2 ^ 63)

/-- `length - i64::from(self.scale)`, which panics where the length or the difference is no `i64`. -/
def magnitude (written : ℕ) (scale : Int32) : Option ℤ :=
  if isI64 written && isI64 (written - scale.toInt) then some (written - scale.toInt) else none

def Decimal.amount (d : Decimal) : Option (Bool × ℤ × List Char) :=
  let negative := d.unscaled.head? == some '-'
  let digits := (d.unscaled.dropWhile (· == '-')).rdropWhile (· == '0')
  if digits.isEmpty then some (false, 0, [])
  else
    (magnitude (d.unscaled.dropWhile (· == '-')).length d.scale).map (negative, ·, digits)

/-- `==`. -/
def Decimal.eq (d e : Decimal) : Option Bool := do
  let mine ← d.amount
  let theirs ← e.amount
  return mine == theirs

def Decimal.hash {H : Type} (take : Bool × ℤ × List Char → H → H) (d : Decimal) (state : H) :
    Option H := do
  let mine ← d.amount
  return take mine state

def signum (negative : Bool) (digits : List Char) : ℤ :=
  match negative, digits.isEmpty with
  | _, true => 0
  | true, false => -1
  | false, false => 1

/-- What `cmp` answers of two amounts. -/
def order : Bool × ℤ × List Char → Bool × ℤ × List Char → Ordering
  | (negative, magnitude, digits), (theirNegative, theirMagnitude, theirDigits) =>
    let mine := signum negative digits
    let theirs := signum theirNegative theirDigits
    if mine ≠ theirs ∨ mine = 0 then cmp mine theirs
    else
      let bySize := (cmp magnitude theirMagnitude).then (lexical digits theirDigits)
      if negative then bySize.swap else bySize

/-- `cmp`. -/
def Decimal.cmp (d e : Decimal) : Option Ordering := do
  let mine ← d.amount
  let theirs ← e.amount
  return order mine theirs

/-- The integer a text of an optional `-` and digits writes. -/
def integer (text : List Char) : ℤ :=
  match stripped text with
  | (true, digits) => -(Nat.ofDigitChars 10 digits 0 : ℤ)
  | (false, digits) => Nat.ofDigitChars 10 digits 0

def Decimal.rational (d : Decimal) : ℚ := integer d.unscaled / (10 : ℚ) ^ d.scale.toInt

def worth (c : Char) : ℕ := c.toNat - '0'.toNat

theorem worth_lt {c : Char} (h : c.isDigit = true) : worth c < 10 := by
  have hle : 48 ≤ c.toNat ∧ c.toNat ≤ 57 := by
    simpa [Char.isDigit, UInt32.le_iff_toNat_le] using h
  have h0 : '0'.toNat = 48 := rfl
  rw [worth, h0]
  omega

theorem worth_lt_worth {c d : Char} (hc : c.isDigit = true) (hd : d.isDigit = true) :
    worth c < worth d ↔ c < d := by
  have hc' : 48 ≤ c.toNat ∧ c.toNat ≤ 57 := by
    simpa [Char.isDigit, UInt32.le_iff_toNat_le] using hc
  have hd' : 48 ≤ d.toNat ∧ d.toNat ≤ 57 := by
    simpa [Char.isDigit, UInt32.le_iff_toNat_le] using hd
  have h0 : '0'.toNat = 48 := rfl
  have hchar : c < d ↔ c.toNat < d.toNat := Iff.rfl
  rw [worth, worth, h0, hchar]
  omega

theorem cmp_worth {c d : Char} (hc : c.isDigit = true) (hd : d.isDigit = true) :
    cmp (worth c) (worth d) = cmp c d := by
  rcases lt_trichotomy c d with hlt | rfl | hgt
  · rw [(cmp_eq_lt_iff c d).mpr hlt, (cmp_eq_lt_iff _ _).mpr ((worth_lt_worth hc hd).mpr hlt)]
  · rw [cmp_self_eq_eq, cmp_self_eq_eq]
  · rw [(cmp_eq_gt_iff c d).mpr hgt, (cmp_eq_gt_iff _ _).mpr ((worth_lt_worth hd hc).mpr hgt)]

theorem lexical_worth {cs ds : List Char} (hcs : ∀ c ∈ cs, c.isDigit = true)
    (hds : ∀ d ∈ ds, d.isDigit = true) :
    lexical (cs.map worth) (ds.map worth) = lexical cs ds := by
  induction cs generalizing ds with
  | nil => cases ds <;> rfl
  | cons c cs ih =>
    cases ds with
    | nil => rfl
    | cons d ds =>
      rw [List.map_cons, List.map_cons, lexical, lexical,
        cmp_worth (hcs c List.mem_cons_self) (hds d List.mem_cons_self),
        ih (fun x hx => hcs x (List.mem_cons_of_mem _ hx))
          (fun x hx => hds x (List.mem_cons_of_mem _ hx))]

theorem ofDigitChars_eq (ds : List Char) :
    (Nat.ofDigitChars 10 ds 0 : ℚ) = fraction 10 (ds.map worth) * 10 ^ ds.length := by
  induction ds with
  | nil => simp [fraction]
  | cons c ds ih =>
    rw [Nat.ofDigitChars_cons, Nat.ofDigitChars_eq_ofDigitChars_zero, Nat.mul_zero, Nat.zero_add,
      List.map_cons, fraction, List.length_cons, pow_succ]
    push_cast
    have hworth : (worth c : ℚ) = (c.toNat - 48 : ℕ) := rfl
    rw [ih, hworth]
    ring

structure Significant (ds : List Char) : Prop where
  digits : ∀ c ∈ ds, c.isDigit = true
  leading : ∃ c rest, ds = c :: rest ∧ c ≠ '0'
  trailing : ∀ h : ds ≠ [], ds.getLast h ≠ '0'

def size (magnitude : ℤ) (digits : List Char) : ℚ :=
  fraction 10 (digits.map worth) * 10 ^ magnitude

def signed (negative : Bool) (x : ℚ) : ℚ := if negative then -x else x

inductive Measures : Bool × ℤ × List Char → ℚ → Prop
  | nought : Measures (false, 0, []) 0
  | digits (negative : Bool) (magnitude : ℤ) {ds : List Char} (h : Significant ds) :
    Measures (negative, magnitude, ds) (signed negative (size magnitude ds))

namespace Significant

variable {ds es : List Char}

theorem ne_nil (h : Significant ds) : ds ≠ [] := by
  obtain ⟨c, rest, hcons, -⟩ := h.leading
  rw [hcons]
  exact List.cons_ne_nil _ _

theorem worth_pos {c : Char} (h : c.isDigit = true) (hne : c ≠ '0') : worth c ≠ 0 := by
  intro hzero
  have hle : ¬ worth '0' < worth c := by
    rw [hzero]
    exact Nat.not_lt_zero _
  have hge : ¬ worth c < worth '0' := by
    rw [hzero]
    exact lt_irrefl 0
  rw [worth_lt_worth (by decide) h] at hle
  rw [worth_lt_worth h (by decide)] at hge
  exact hne (le_antisymm (not_lt.mp hle) (not_lt.mp hge))

theorem worth_lt_ten (h : Significant ds) : ∀ d ∈ ds.map worth, d < 10 := by
  intro d hd
  obtain ⟨c, hc, rfl⟩ := List.mem_map.mp hd
  exact worth_lt (h.digits c hc)

theorem trimmed (h : Significant ds) : Trimmed (ds.map worth) := by
  intro hne
  rw [List.getLast_map]
  exact worth_pos (h.digits _ (List.getLast_mem _)) (h.trailing _)

theorem fraction_bounds (h : Significant ds) :
    ((10 : ℕ) : ℚ)⁻¹ ≤ fraction 10 (ds.map worth) ∧ fraction 10 (ds.map worth) < 1 := by
  constructor
  · obtain ⟨c, rest, hcons, hc⟩ := h.leading
    rw [hcons, List.map_cons]
    apply inv_le_fraction (by decide)
    exact worth_pos (h.digits c (hcons ▸ List.mem_cons_self)) hc
  · exact fraction_lt_one (by decide) h.worth_lt_ten

theorem size_pos (h : Significant ds) (m : ℤ) : 0 < size m ds := by
  have hbounds := h.fraction_bounds
  have hinv : (0 : ℚ) < ((10 : ℕ) : ℚ)⁻¹ := by norm_num
  exact mul_pos (hinv.trans_le hbounds.1) (zpow_pos (by norm_num) m)

theorem cmp_size (h : Significant ds) (h' : Significant es) (m n : ℤ) :
    cmp (size m ds) (size n es) = (cmp m n).then (lexical ds es) := by
  have hscaled := cmp_scaled (b := 10) (by decide) h.fraction_bounds h'.fraction_bounds m n
  rw [cmp_fraction (by decide) h.worth_lt_ten h'.worth_lt_ten h.trimmed h'.trimmed,
    lexical_worth h.digits h'.digits] at hscaled
  exact hscaled

end Significant

theorem signum_digits (negative : Bool) {ds : List Char} (h : ds ≠ []) :
    signum negative ds = if negative then -1 else 1 := by
  obtain ⟨c, rest, rfl⟩ := List.exists_cons_of_ne_nil h
  cases negative <;> rfl

theorem cmp_neg_neg (x y : ℚ) : cmp (-x) (-y) = (cmp x y).swap := by
  rw [cmp_swap]
  rcases lt_trichotomy x y with hlt | rfl | hgt
  · rw [(cmp_eq_gt_iff y x).mpr hlt, (cmp_eq_gt_iff _ _).mpr (neg_lt_neg hlt)]
  · rw [cmp_self_eq_eq, cmp_self_eq_eq]
  · rw [(cmp_eq_lt_iff y x).mpr hgt, (cmp_eq_lt_iff _ _).mpr (neg_lt_neg hgt)]

/-- Two amounts are ordered as the numbers are. -/
theorem order_eq {a b : Bool × ℤ × List Char} {x y : ℚ} (ha : Measures a x) (hb : Measures b y) :
    order a b = cmp x y := by
  cases ha with
  | nought =>
    cases hb with
    | nought => rfl
    | digits negative magnitude hb =>
      have hpos := hb.size_pos magnitude
      cases negative with
      | false =>
        simp only [order, signum_digits _ hb.ne_nil]
        exact ((cmp_eq_lt_iff _ _).mpr hpos).symm
      | true =>
        simp only [order, signum_digits _ hb.ne_nil]
        exact ((cmp_eq_gt_iff _ _).mpr (neg_neg_of_pos hpos)).symm
  | digits negative magnitude ha =>
    have hpos := ha.size_pos magnitude
    cases hb with
    | nought =>
      cases negative with
      | false =>
        simp only [order, signum_digits _ ha.ne_nil]
        exact ((cmp_eq_gt_iff _ _).mpr hpos).symm
      | true =>
        simp only [order, signum_digits _ ha.ne_nil]
        exact ((cmp_eq_lt_iff _ _).mpr (neg_neg_of_pos hpos)).symm
    | digits theirNegative theirMagnitude hb =>
      have hpos' := hb.size_pos theirMagnitude
      cases negative <;> cases theirNegative
      all_goals simp only [order, signum_digits _ ha.ne_nil, signum_digits _ hb.ne_nil]
      · exact (ha.cmp_size hb _ _).symm
      · refine ((cmp_eq_gt_iff _ _).mpr ?_).symm
        exact (neg_neg_of_pos hpos').trans hpos
      · refine ((cmp_eq_lt_iff _ _).mpr ?_).symm
        exact (neg_neg_of_pos hpos).trans hpos'
      · exact ((cmp_neg_neg _ _).trans (congrArg Ordering.swap (ha.cmp_size hb _ _))).symm

theorem eq_of_size {ds es : List Char} (h : Significant ds) (h' : Significant es) {m n : ℤ}
    (heq : size m ds = size n es) : m = n ∧ ds = es := by
  have hcmp := h.cmp_size h' m n
  rw [heq, cmp_self_eq_eq] at hcmp
  rw [eq_comm, Ordering.then_eq_eq, cmp_eq_eq_iff] at hcmp
  exact ⟨hcmp.1, eq_of_lexical hcmp.2⟩

theorem measures_inj {a b : Bool × ℤ × List Char} {x y : ℚ} (ha : Measures a x) (hb : Measures b y)
    (h : x = y) : a = b := by
  cases ha with
  | nought =>
    cases hb with
    | nought => rfl
    | digits negative magnitude hb =>
      have hpos := hb.size_pos magnitude
      cases negative <;> simp only [signed, Bool.false_eq_true, if_true, if_false] at h <;> linarith
  | digits negative magnitude ha =>
    have hpos := ha.size_pos magnitude
    cases hb with
    | nought =>
      cases negative <;> simp only [signed, Bool.false_eq_true, if_true, if_false] at h <;> linarith
    | digits theirNegative theirMagnitude hb =>
      have hpos' := hb.size_pos theirMagnitude
      cases negative <;> cases theirNegative
      all_goals simp only [signed, Bool.false_eq_true, if_true, if_false] at h
      · obtain ⟨rfl, rfl⟩ := eq_of_size ha hb h
        rfl
      · linarith
      · linarith
      · obtain ⟨rfl, rfl⟩ := eq_of_size ha hb (neg_inj.mp h)
        rfl

theorem measures_unique {a : Bool × ℤ × List Char} {x y : ℚ} (hx : Measures a x)
    (hy : Measures a y) : x = y := by
  have hself := order_eq hx hy
  rw [order_eq hx hx, cmp_self_eq_eq] at hself
  exact (cmp_eq_eq_iff x y).mp hself.symm

def Decimal.written (d : Decimal) : ℕ := (d.unscaled.dropWhile (· == '-')).length

theorem natural_cut {ds : List Char} (h : Natural ds) :
    Significant (ds.rdropWhile (· == '0')) ∧
      ∃ k, ds = ds.rdropWhile (· == '0') ++ List.replicate k '0' := by
  obtain ⟨hdigits, c, rest, hcons, hc⟩ := h
  have hsplit : ds.rdropWhile (· == '0') ++ ds.rtakeWhile (· == '0') = ds :=
    List.rdropWhile_append_rtakeWhile
  have hnoughts : ∀ x ∈ ds.rtakeWhile (· == '0'), x = '0' := by
    intro x hx
    have hnought := @List.mem_rtakeWhile_imp _ (· == '0') ds x hx
    exact beq_iff_eq.mp hnought
  constructor
  · constructor
    · intro x hx
      exact hdigits x (hsplit ▸ List.mem_append_left _ hx)
    · cases hcut : ds.rdropWhile (· == '0') with
      | nil =>
        rw [hcut, List.nil_append] at hsplit
        rw [hsplit, hcons] at hnoughts
        exact absurd (hnoughts c List.mem_cons_self) hc
      | cons x cut =>
        rw [hcut, hcons, List.cons_append, List.cons.injEq] at hsplit
        exact ⟨x, cut, rfl, hsplit.1 ▸ hc⟩
    · intro hne hzero
      apply List.rdropWhile_last_not (· == '0') ds hne
      rw [hzero]
      rfl
  · refine ⟨(ds.rtakeWhile (· == '0')).length, ?_⟩
    rw [← List.eq_replicate_of_mem hnoughts]
    exact hsplit.symm

theorem ofDigitChars_cut {ds : List Char} (h : Natural ds) (scale : ℤ) :
    (Nat.ofDigitChars 10 ds 0 : ℚ) / (10 : ℚ) ^ scale =
      size (ds.length - scale) (ds.rdropWhile (· == '0')) := by
  obtain ⟨-, k, hk⟩ := natural_cut h
  have hworth : ds.map worth = (ds.rdropWhile (· == '0')).map worth ++ List.replicate k 0 := by
    have hmap := congrArg (List.map worth) hk
    rw [List.map_append, List.map_replicate] at hmap
    exact hmap
  rw [ofDigitChars_eq, hworth, fraction_noughts, size, zpow_sub₀ (by norm_num), zpow_natCast]
  ring

theorem not_minus_of_natural {ds : List Char} (h : Natural ds) :
    ∃ c rest, ds = c :: rest ∧ c ≠ '-' := by
  obtain ⟨hdigits, c, rest, rfl, -⟩ := h
  refine ⟨c, rest, rfl, ?_⟩
  rintro rfl
  exact absurd (hdigits '-' List.mem_cons_self) (by decide)

theorem dropWhile_natural {ds : List Char} (h : Natural ds) : ds.dropWhile (· == '-') = ds := by
  obtain ⟨c, rest, rfl, hc⟩ := not_minus_of_natural h
  rw [List.dropWhile_cons_of_neg]
  rw [beq_iff_eq]
  exact hc

theorem stripped_natural {ds : List Char} (h : Natural ds) : stripped ds = (false, ds) := by
  obtain ⟨c, rest, rfl, hc⟩ := not_minus_of_natural h
  unfold stripped
  split
  · next heq => exact absurd (List.cons.inj heq).1 hc
  · rfl

theorem kept_cases {text : List Char} (h : Kept text) :
    text = ['0'] ∨ ∃ negative ds, Natural ds ∧ (text.head? == some '-') = negative ∧
      text.dropWhile (· == '-') = ds ∧
      (integer text : ℚ) = signed negative (Nat.ofDigitChars 10 ds 0 : ℚ) := by
  rcases h with rfl | hds | ⟨ds, rfl, hds⟩
  · exact .inl rfl
  · refine .inr ⟨false, text, hds, ?_, dropWhile_natural hds, ?_⟩
    · obtain ⟨c, rest, rfl, hc⟩ := not_minus_of_natural hds
      simpa using hc
    · rw [integer, stripped_natural hds]
      rfl
  · refine .inr ⟨true, ds, hds, rfl, ?_, ?_⟩
    · rw [List.dropWhile_cons_of_pos rfl]
      exact dropWhile_natural hds
    · simp only [integer, stripped, signed, if_true]
      push_cast
      rfl

theorem magnitude_eq_some {written : ℕ} {scale : Int32} {m : ℤ}
    (h : magnitude written scale = some m) : m = written - scale.toInt := by
  rw [magnitude] at h
  split_ifs at h
  exact (Option.some.inj h).symm

/-- What an amount is where there are digits: the magnitude is one of 64 bits or there is none. -/
theorem amount_of_natural {d : Decimal} {negative : Bool} {ds : List Char} (h : Natural ds)
    (hhead : (d.unscaled.head? == some '-') = negative)
    (hdrop : d.unscaled.dropWhile (· == '-') = ds) :
    d.amount = (magnitude ds.length d.scale).map (negative, ·, ds.rdropWhile (· == '0')) := by
  have hne := (natural_cut h).1.ne_nil
  rw [Decimal.amount]
  simp only [hdrop, hhead, List.isEmpty_eq_false_iff.mpr hne, Bool.false_eq_true, if_false]

theorem amount_nought {d : Decimal} (h : d.unscaled = ['0']) :
    d.amount = some (false, 0, []) ∧ d.rational = 0 := by
  constructor
  · rw [Decimal.amount, h]
    rfl
  · have hinteger : integer ['0'] = 0 := by decide
    rw [Decimal.rational, h, hinteger, Int.cast_zero, zero_div]

theorem measures_amount {d : Decimal} {a : Bool × ℤ × List Char} (h : d.amount = some a) :
    Measures a d.rational := by
  rcases kept_cases d.kept with hnought | ⟨negative, ds, hds, hhead, hdrop, hinteger⟩
  · obtain ⟨hamount, hrational⟩ := amount_nought hnought
    rw [hamount] at h
    rw [← Option.some.inj h, hrational]
    exact .nought
  · rw [amount_of_natural hds hhead hdrop, Option.map_eq_some_iff] at h
    obtain ⟨m, hm, rfl⟩ := h
    have hrational : d.rational = signed negative (size m (ds.rdropWhile (· == '0'))) := by
      rw [magnitude_eq_some hm, ← ofDigitChars_cut hds, Decimal.rational, hinteger]
      cases negative
      · rfl
      · simp only [signed, if_true, neg_div]
    rw [hrational]
    exact .digits negative m (natural_cut hds).1

/-- `length - scale` is an `i64`, or there is no length to take a scale from. -/
def Decimal.Counted (d : Decimal) : Prop :=
  d.unscaled = ['0'] ∨ (d.written : ℤ) - d.scale.toInt < 2 ^ 63 ∧ d.written < 2 ^ 63

theorem amount_isSome (d : Decimal) : d.amount.isSome = true ↔ d.Counted := by
  rcases kept_cases d.kept with hnought | ⟨negative, ds, hds, hhead, hdrop, hinteger⟩
  · rw [(amount_nought hnought).1]
    exact ⟨fun _ => .inl hnought, fun _ => rfl⟩
  · have hnot : d.unscaled ≠ ['0'] := by
      intro hnought
      obtain ⟨-, c, rest, hcons, hc⟩ := hds
      rw [hnought, hcons] at hdrop
      exact hc (List.cons.inj hdrop).1.symm
    have hbelow := Int32.toInt_lt d.scale
    rw [amount_of_natural hds hhead hdrop, Option.isSome_map, Decimal.Counted, Decimal.written,
      hdrop, magnitude]
    split_ifs with hfits
    · simp only [isI64, Bool.and_eq_true, decide_eq_true_eq] at hfits
      simp only [Option.isSome_some, true_iff]
      right
      omega
    · simp only [isI64, Bool.and_eq_true, decide_eq_true_eq] at hfits
      simp only [Option.isSome_none, Bool.false_eq_true, false_iff]
      rintro (hnought | hsize)
      · exact hnot hnought
      · omega

/-- A text of an optional `-` and one or more ASCII digits. -/
def Written (text : List Char) : Prop :=
  ∃ minus digits, (minus = [] ∨ minus = ['-']) ∧ Digits digits ∧ text = minus ++ digits

theorem stripped_digits {digits : List Char} (h : Digits digits) :
    stripped digits = (false, digits) := by
  unfold stripped
  split
  · next rest => exact absurd (h.2 '-' List.mem_cons_self) (by decide)
  · rfl

theorem written_iff (text : List Char) : Written text ↔ Digits (stripped text).2 := by
  constructor
  · rintro ⟨minus, digits, rfl | rfl, hdigits, rfl⟩
    · rw [stripped_digits hdigits]
      exact hdigits
    · exact hdigits
  · intro h
    unfold stripped at h
    split at h
    · next digits => exact ⟨['-'], digits, .inr rfl, h, rfl⟩
    · exact ⟨[], text, .inl rfl, h, rfl⟩

theorem ofDigitChars_dropWhile (digits : List Char) :
    Nat.ofDigitChars 10 (digits.dropWhile (· == '0')) 0 = Nat.ofDigitChars 10 digits 0 := by
  induction digits with
  | nil => rfl
  | cons c digits ih =>
    by_cases hc : c = '0'
    · subst hc
      rw [List.dropWhile_cons_of_pos rfl, ih, Nat.ofDigitChars_cons]
      rfl
    · rw [List.dropWhile_cons_of_neg]
      rw [beq_iff_eq]
      exact hc

theorem integer_normal {text : List Char} (h : Digits (stripped text).2) :
    integer (normal (stripped text).1 (stripped text).2) = integer text := by
  have hvalue := ofDigitChars_dropWhile (stripped text).2
  have hinteger : integer text = if (stripped text).1 then
      -(Nat.ofDigitChars 10 (stripped text).2 0 : ℤ)
      else Nat.ofDigitChars 10 (stripped text).2 0 := by
    rw [integer]
    split
    · next heq => rw [heq]; rfl
    · next heq => rw [heq]; rfl
  rw [hinteger, ← hvalue]
  unfold normal
  split
  · next hempty =>
    rw [List.isEmpty_iff] at hempty
    rw [hempty]
    split_ifs <;> decide
  · next hempty hneg =>
    rw [hneg]
    rfl
  · next hempty hneg =>
    have hnatural := natural_dropWhile h.2 (List.isEmpty_eq_false_iff.mp hempty)
    rw [hneg, integer, stripped_natural hnatural]
    rfl

theorem integer_toText (n : ℤ) : integer (toText n) = n := by
  rw [toText]
  split_ifs with hneg
  · have hinteger : integer ('-' :: Nat.toDigits 10 n.natAbs) =
        -(Nat.ofDigitChars 10 (Nat.toDigits 10 n.natAbs) 0 : ℤ) := rfl
    rw [hinteger, Nat.ofDigitChars_ten_toDigits]
    omega
  · have hdigits : Digits (Nat.toDigits 10 n.natAbs) :=
      ⟨Nat.toDigits_ne_nil, fun c hc => Nat.isDigit_of_mem_toDigits (by decide) (by decide) hc⟩
    rw [integer, stripped_digits hdigits]
    change (Nat.ofDigitChars 10 (Nat.toDigits 10 n.natAbs) 0 : ℤ) = n
    rw [Nat.ofDigitChars_ten_toDigits]
    omega

/-- `Decimal::new` makes the decimal of what is written, and of nothing that is not an integer. -/
theorem new_spec (unscaled : List Char) (scale : Int32) :
    (Written unscaled ∧ ∃ d, Decimal.new unscaled scale = .ok d ∧
      integer d.unscaled = integer unscaled ∧ d.scale = scale ∧ Kept d.unscaled) ∨
    (¬ Written unscaled ∧ Decimal.new unscaled scale = .error ⟨unscaled⟩) := by
  rw [written_iff, Decimal.new]
  split_ifs with h
  · exact .inl ⟨h, _, rfl, integer_normal h, rfl, kept_normal _ h.2⟩
  · exact .inr ⟨h, rfl⟩

theorem amount_of_counted {d : Decimal} (h : d.Counted) :
    ∃ a, d.amount = some a ∧ Measures a d.rational := by
  obtain ⟨a, ha⟩ := Option.isSome_iff_exists.mp ((amount_isSome d).mpr h)
  exact ⟨a, ha, measures_amount ha⟩

theorem cmp_of_counted {d e : Decimal} (hd : d.Counted) (he : e.Counted) :
    d.cmp e = some (cmp d.rational e.rational) := by
  obtain ⟨a, ha, hmine⟩ := amount_of_counted hd
  obtain ⟨b, hb, htheirs⟩ := amount_of_counted he
  rw [Decimal.cmp, ha, hb, ← order_eq hmine htheirs]
  rfl

theorem eq_of_counted {d e : Decimal} (hd : d.Counted) (he : e.Counted) :
    d.eq e = some (decide (d.rational = e.rational)) := by
  obtain ⟨a, ha, hmine⟩ := amount_of_counted hd
  obtain ⟨b, hb, htheirs⟩ := amount_of_counted he
  have hiff : a = b ↔ d.rational = e.rational := by
    constructor
    · rintro rfl
      exact measures_unique hmine htheirs
    · exact measures_inj hmine htheirs
  rw [Decimal.eq, ha, hb, ← decide_eq_decide.mpr hiff, ← beq_eq_decide]
  rfl

theorem hash_of_counted {d e : Decimal} (hd : d.Counted) (he : e.Counted)
    (h : d.rational = e.rational) {H : Type} (take : Bool × ℤ × List Char → H → H) (state : H) :
    ∃ state', d.hash take state = some state' ∧ e.hash take state = some state' := by
  obtain ⟨a, ha, hmine⟩ := amount_of_counted hd
  obtain ⟨b, hb, htheirs⟩ := amount_of_counted he
  obtain rfl := measures_inj hmine htheirs h
  refine ⟨take a state, ?_, ?_⟩
  · rw [Decimal.hash, ha]
    rfl
  · rw [Decimal.hash, hb]
    rfl

theorem counted_of_held {d : Decimal} (h : d.unscaled.length < 2 ^ 62) : d.Counted := by
  have hwritten : d.written ≤ d.unscaled.length := (List.dropWhile_sublist _).length_le
  have hscale := Int32.le_toInt d.scale
  right
  omega

theorem of_counted (n : BitVec 128) (scale : Int32) : (Decimal.of n scale).Counted := by
  have hbelow := BitVec.toInt_lt (x := n)
  have habove := BitVec.le_toInt n
  have hsize : n.toInt.natAbs < 10 ^ 39 := by omega
  have hlength : (toText n.toInt).length ≤ 40 := by
    have hdigits := (Nat.length_toDigits_le_iff (b := 10) (by decide) (by decide)).mpr hsize
    rw [toText]
    split_ifs
    · rw [List.length_cons]
      omega
    · omega
  have hwritten : (Decimal.of n scale).written ≤ (toText n.toInt).length :=
    (List.dropWhile_sublist _).length_le
  have hscale := Int32.le_toInt scale
  have hsame : (Decimal.of n scale).scale = scale := rfl
  right
  rw [hsame]
  omega

theorem of_spec (n : BitVec 128) (scale : Int32) :
    integer (Decimal.of n scale).unscaled = n.toInt ∧ (Decimal.of n scale).scale = scale ∧
      (Decimal.of n scale).Counted :=
  ⟨integer_toText _, rfl, of_counted n scale⟩

/-- Two decimals are ordered, equal and hashed by amount, and `length - scale` overflows for no text
that is held. -/
theorem decimals_are_ordered_by_amount :
    (∀ d e : Decimal, d.Counted → e.Counted →
      d.cmp e = some (cmp d.rational e.rational) ∧
      d.eq e = some (decide (d.rational = e.rational)) ∧
      (d.rational = e.rational → ∀ {H : Type} (take : Bool × ℤ × List Char → H → H) (state : H),
        ∃ state', d.hash take state = some state' ∧ e.hash take state = some state')) ∧
    (∀ d : Decimal, d.amount.isSome = true ↔ d.Counted) ∧
    (∀ d : Decimal, d.unscaled.length < 2 ^ 62 → d.Counted) ∧
    (∀ unscaled scale, (Written unscaled ∧ ∃ d, Decimal.new unscaled scale = .ok d ∧
        integer d.unscaled = integer unscaled ∧ d.scale = scale ∧ Kept d.unscaled) ∨
      (¬ Written unscaled ∧ Decimal.new unscaled scale = .error ⟨unscaled⟩)) ∧
    (∀ n scale, integer (Decimal.of n scale).unscaled = n.toInt ∧
      (Decimal.of n scale).scale = scale ∧ (Decimal.of n scale).Counted) :=
  ⟨fun _ _ hd he => ⟨cmp_of_counted hd he, eq_of_counted hd he, hash_of_counted hd he⟩,
    amount_isSome, fun _ => counted_of_held, new_spec, of_spec⟩

theorem fifteen_above_minus : (Decimal.of 15 1).cmp (Decimal.of (-150) (-2)) =
    some (cmp (Decimal.of 15 1).rational (Decimal.of (-150) (-2)).rational) :=
  (decimals_are_ordered_by_amount.1 _ _ (of_counted 15 1) (of_counted (-150) (-2))).1

end SoutherNative.Decimals
