import SoutherNative.Checked
import SoutherNative.Decoding
import SoutherNative.JsonGrammar

set_option autoImplicit false

/-!
# Integers as they are written

`integer` counts toward the sign in checked steps of 64 bits. `int`, which reads a number of a
document, counts the magnitude at twice the width and stops past what any `Int` comes to. Both are
told by one sum over the digits.
-/
namespace SoutherNative.IntegerText
open Utf8 JsonScanner JsonGrammar Checked
open Document (Node)
open Decoding (Path)

def worth (digit : UInt8) : ℕ := (digit - byte '0').toNat

/-- One turn of the loop of `integer`: counted toward the sign. -/
def counted (negative : Bool) (value : ℤ) (digit : UInt8) : Option ℤ :=
  if isDigit digit then do
    let step : ℤ := worth digit
    let value ← i64 (value * 10)
    if negative then i64 (value - step) else i64 (value + step)
  else none

/-- The sign a text begins with and what follows it: `split_first`. -/
def signed : Bytes → Option (Bool × Bytes)
  | [] => none
  | b :: rest =>
    if b = byte '-' then some (true, rest)
    else if b = byte '+' then some (false, rest)
    else some (false, b :: rest)

def integer (text : Bytes) : Option ℤ := do
  let (negative, digits) ← signed text
  if digits = [] then none else digits.foldlM (counted negative) 0

/-- `value.to_string()`. -/
def written (value : ℤ) : Bytes :=
  let digits := (Nat.toDigits 10 value.natAbs).map byte
  if value < 0 then byte '-' :: digits else digits

/-- What is found wrong, with the key of its message and what it says of it. -/
structure Found where
  code : String
  messageKey : String
  path : Path
  about : List (String × String)
  deriving DecidableEq

/-- `Node::kind`. -/
def kind : Node → String
  | .null => "null"
  | .bool _ => "boolean"
  | .number _ => "number"
  | .string _ => "string"
  | .array _ => "array"
  | .object _ | .keyed _ => "object"

/-- `wanted::INT`. -/
def wantedInt : String := "long"

def mismatched (path : Path) (node : Node) (wanted : String) : Found :=
  match node with
  | .null => ⟨"required", "required", path, []⟩
  | node => ⟨"type_mismatch", "type_mismatch", path, [("actual", kind node), ("expected", wanted)]⟩

/-- The loop of `int`. -/
def magnitude (value : ℤ) : Bytes → ℤ
  | [] => value
  | digit :: digits =>
    let value := value * 10 + worth digit
    if value > 2 ^ 63 then value else magnitude value digits

/-- What `int` answers, and what it finds where it answers nothing. -/
def int (node : Node) (path : Path) : Option ℤ × List Found :=
  match node with
  | .number text =>
    let (negative, digits) :=
      match text with
      | b :: rest => if b = byte '-' then (true, rest) else (false, text)
      | [] => (false, text)
    if digits.all isDigit then
      let magnitude := magnitude 0 digits
      let value := if negative then -magnitude else magnitude
      match i64 value with
      | some read => (some read, [])
      | none => (none, [⟨"type_mismatch", "type_mismatch.numeric_range", path,
          [("expected", wantedInt)]⟩])
    else (none, [mismatched path node wantedInt])
  | node => (none, [mismatched path node wantedInt])

def amount (digits : Bytes) : ℕ := Nat.ofDigits 10 (digits.reverse.map worth)

def toward (negative : Bool) (n : ℕ) : ℤ := if negative then -n else n

def Spelled (text : Bytes) (n : ℤ) : Prop :=
  ∃ sign digits, text = sign ++ digits ∧ Sign sign ∧ Digits digits ∧
    n = toward (sign = [byte '-']) (amount digits)

section Digits

def sum (value : ℕ) (digits : Bytes) : ℕ := digits.foldl (fun n digit => n * 10 + worth digit) value

theorem sum_eq (value : ℕ) (digits : Bytes) :
    sum value digits = value * 10 ^ digits.length + amount digits := by
  induction digits generalizing value with
  | nil => simp [sum, amount]
  | cons digit digits ih =>
    have hstep : sum value (digit :: digits) = sum (value * 10 + worth digit) digits := rfl
    rw [hstep, ih, amount, amount, List.reverse_cons, List.map_append, Nat.ofDigits_append,
      List.length_map, List.length_reverse, List.length_cons]
    simp only [List.map_cons, List.map_nil, Nat.ofDigits_singleton]
    ring

theorem amount_eq (digits : Bytes) : amount digits = sum 0 digits := by
  rw [sum_eq, Nat.zero_mul, Nat.zero_add]

theorem le_sum (value : ℕ) (digits : Bytes) : value ≤ sum value digits := by
  rw [sum_eq]
  exact (Nat.le_mul_of_pos_right _ (by positivity)).trans (Nat.le_add_right _ _)

theorem toward_step (negative : Bool) (value : ℕ) (digit : UInt8) :
    (if negative then toward negative value * 10 - (worth digit : ℤ)
      else toward negative value * 10 + (worth digit : ℤ)) =
      toward negative (value * 10 + worth digit) := by
  cases negative
  · simp [toward]
  · simp only [toward, ↓reduceIte, Nat.cast_add, Nat.cast_mul, Nat.cast_ofNat]
    ring

theorem i64_toward_none {negative : Bool} {m n : ℕ} (hle : m ≤ n)
    (h : i64 (toward negative m) = none) : i64 (toward negative n) = none := by
  have hout : ¬(-9223372036854775808 ≤ toward negative m ∧
      toward negative m < 9223372036854775808) := by
    intro hfits
    rw [i64_of hfits] at h
    cases h
  rw [i64, if_neg]
  intro hfits
  apply hout
  cases negative <;> simp only [toward, Bool.false_eq_true, ↓reduceIte] at hfits ⊢ <;> omega

theorem i64_toward_some {negative : Bool} {m n : ℕ} (hle : m ≤ n)
    (h : (i64 (toward negative n)).isSome = true) :
    i64 (toward negative m) = some (toward negative m) := by
  cases hm : i64 (toward negative m) with
  | none =>
    rw [i64_toward_none hle hm] at h
    cases h
  | some read =>
    rw [i64] at hm
    split_ifs at hm
    rw [← hm]

theorem counted_digit (negative : Bool) (value : ℕ) {digit : UInt8} (h : isDigit digit = true) :
    counted negative (toward negative value) digit =
      i64 (toward negative (value * 10 + worth digit)) := by
  have hten : toward negative value * 10 = toward negative (value * 10) := by
    cases negative <;> simp [toward]
  rw [counted, if_pos h, ← toward_step, apply_ite i64, hten]
  cases hfirst : i64 (toward negative (value * 10)) with
  | none =>
    have hnone := i64_toward_none (Nat.le_add_right (value * 10) (worth digit)) hfirst
    rw [← apply_ite i64, ← hten, toward_step, hnone]
    rfl
  | some first =>
    have hsome := i64_toward_some (Nat.le_refl _) (Option.isSome_of_eq_some hfirst)
    obtain rfl := Option.some.inj (hfirst.symm.trans hsome)
    rfl

/-- The loop of `integer` comes to the number where it is one of 64 bits, whatever was in between. -/
theorem foldlM_counted (negative : Bool) {value : ℕ} (digits : Bytes)
    (h : i64 (toward negative value) = some (toward negative value)) :
    digits.foldlM (counted negative) (toward negative value) =
      if digits.all isDigit then i64 (toward negative (sum value digits)) else none := by
  induction digits generalizing value with
  | nil => exact h.symm
  | cons digit digits ih =>
    rw [List.foldlM_cons, List.all_cons]
    cases hdigit : isDigit digit with
    | false => rw [counted, hdigit]; rfl
    | true =>
      rw [counted_digit negative value hdigit, Bool.true_and]
      cases hnext : i64 (toward negative (value * 10 + worth digit)) with
      | none =>
        have hnone : i64 (toward negative (sum value (digit :: digits))) = none :=
          i64_toward_none (le_sum (value * 10 + worth digit) digits) hnext
        rw [hnone, ite_self]
        rfl
      | some next =>
        have hsome := i64_toward_some (Nat.le_refl _) (Option.isSome_of_eq_some hnext)
        obtain rfl := Option.some.inj (hnext.symm.trans hsome)
        exact ih hsome

theorem le_magnitude (negative : Bool) {value : ℕ} (digits : Bytes) (h : value ≤ 2 ^ 63) :
    ∃ m : ℕ, magnitude value digits = m ∧ m ≤ sum value digits ∧
      i64 (toward negative m) = i64 (toward negative (sum value digits)) := by
  induction digits generalizing value with
  | nil => exact ⟨value, rfl, Nat.le_refl _, rfl⟩
  | cons digit digits ih =>
    have hsum : sum value (digit :: digits) = sum (value * 10 + worth digit) digits := rfl
    have hcast : (value : ℤ) * 10 + worth digit = ((value * 10 + worth digit : ℕ) : ℤ) := by
      push_cast
      rfl
    rw [magnitude, hcast, hsum]
    split_ifs with hpast
    · have hle := le_sum (value * 10 + worth digit) digits
      have hnone : i64 (toward negative (value * 10 + worth digit)) = none := by
        rw [i64, if_neg]
        intro hfits
        cases negative <;> simp only [toward, Bool.false_eq_true, ↓reduceIte] at hfits <;> omega
      exact ⟨_, rfl, hle, hnone.trans (i64_toward_none hle hnone).symm⟩
    · exact ih (by omega)

end Digits

section Readers

def IsInt (n : ℤ) : Prop := -2 ^ 63 ≤ n ∧ n < 2 ^ 63

theorem i64_eq_some {m n : ℤ} : i64 m = some n ↔ n = m ∧ IsInt n := by
  rw [i64, IsInt]
  split_ifs with hfits
  · constructor
    · rintro ⟨⟩
      exact ⟨rfl, hfits⟩
    · rintro ⟨rfl, -⟩
      rfl
  · constructor
    · intro h
      cases h
    · rintro ⟨rfl, hin⟩
      exact absurd hin hfits

def made (negative : Bool) (digits : Bytes) : Option ℤ :=
  if digits.all isDigit then i64 (toward negative (amount digits)) else none

theorem made_eq_some {negative : Bool} {digits : Bytes} {n : ℤ} :
    made negative digits = some n ↔
      (∀ b ∈ digits, isDigit b = true) ∧ n = toward negative (amount digits) ∧ IsInt n := by
  rw [made, ← List.all_eq_true]
  split_ifs with hall
  · rw [i64_eq_some]
    exact ⟨fun h => ⟨hall, h⟩, fun h => h.2⟩
  · exact ⟨nofun, fun h => absurd h.1 hall⟩

theorem foldlM_made (negative : Bool) (digits : Bytes) :
    digits.foldlM (counted negative) 0 = made negative digits := by
  have hzero : toward negative 0 = 0 := by cases negative <;> rfl
  have h := @foldlM_counted negative 0 digits (by rw [hzero]; rfl)
  rw [hzero, ← amount_eq] at h
  exact h

theorem integer_minus (digits : Bytes) :
    integer (byte '-' :: digits) = if digits = [] then none else made true digits := by
  rw [← foldlM_made]
  rfl

theorem integer_plus (digits : Bytes) :
    integer (byte '+' :: digits) = if digits = [] then none else made false digits := by
  rw [← foldlM_made]
  rfl

theorem integer_bare {b : UInt8} (hminus : b ≠ byte '-') (hplus : b ≠ byte '+') (rest : Bytes) :
    integer (b :: rest) = made false (b :: rest) := by
  rw [← foldlM_made, integer, signed, if_neg hminus, if_neg hplus]
  rfl

theorem digit_ne {b : UInt8} (h : isDigit b = true) : b ≠ byte '-' ∧ b ≠ byte '+' := by
  constructor <;> rintro rfl <;> exact absurd h (by decide)

theorem integer_eq_some {text : Bytes} {n : ℤ} :
    integer text = some n ↔ Spelled text n ∧ IsInt n := by
  constructor
  · intro h
    cases text with
    | nil => cases h
    | cons b rest =>
      by_cases hminus : b = byte '-'
      · rw [hminus, integer_minus] at h
        split_ifs at h with hempty
        obtain ⟨hall, hn, hin⟩ := made_eq_some.mp h
        exact ⟨⟨[b], rest, rfl, .inr (.inr (by rw [hminus])), ⟨hempty, hall⟩,
          by rw [hminus]; exact hn⟩, hin⟩
      · by_cases hplus : b = byte '+'
        · rw [hplus, integer_plus] at h
          split_ifs at h with hempty
          obtain ⟨hall, hn, hin⟩ := made_eq_some.mp h
          exact ⟨⟨[b], rest, rfl, .inr (.inl (by rw [hplus])), ⟨hempty, hall⟩,
            by rw [hplus]; exact hn⟩, hin⟩
        · rw [integer_bare hminus hplus] at h
          obtain ⟨hall, hn, hin⟩ := made_eq_some.mp h
          exact ⟨⟨[], b :: rest, rfl, .inl rfl, ⟨List.cons_ne_nil _ _, hall⟩, hn⟩, hin⟩
  · rintro ⟨⟨sign, digits, rfl, hsign, ⟨hne, hall⟩, hn⟩, hin⟩
    rcases hsign with rfl | rfl | rfl
    · obtain ⟨b, rest, rfl⟩ := List.exists_cons_of_ne_nil hne
      obtain ⟨hminus, hplus⟩ := digit_ne (hall b List.mem_cons_self)
      rw [List.nil_append, integer_bare hminus hplus]
      exact made_eq_some.mpr ⟨hall, hn, hin⟩
    · rw [List.singleton_append, integer_plus, if_neg hne]
      exact made_eq_some.mpr ⟨hall, hn, hin⟩
    · rw [List.singleton_append, integer_minus, if_neg hne]
      exact made_eq_some.mpr ⟨hall, hn, hin⟩

theorem byte_digit {c : Char} (h : c.isDigit = true) :
    isDigit (byte c) = true ∧ worth (byte c) = c.toNat - '0'.toNat := by
  simp only [Char.isDigit, Bool.and_eq_true, decide_eq_true_eq, ge_iff_le,
    UInt32.le_iff_toNat_le] at h
  have hcode : '0'.val.toNat = 48 ∧ '9'.val.toNat = 57 ∧ '0'.toNat = 48 := by decide
  have hplace : c.val.toNat = c.toNat := rfl
  have hbyte : (byte c).toNat = c.toNat := by
    rw [byte, UInt8.toNat_ofNat']
    omega
  have h0 : (byte '0').toNat = 48 := rfl
  have h9 : (byte '9').toNat = 57 := rfl
  have hlow : byte '0' ≤ byte c := by
    rw [UInt8.le_iff_toNat_le]
    omega
  have hhigh : byte c ≤ byte '9' := by
    rw [UInt8.le_iff_toNat_le]
    omega
  refine ⟨?_, ?_⟩
  · rw [isDigit, decide_eq_true hlow, decide_eq_true hhigh]
    rfl
  · rw [worth, UInt8.toNat_sub_of_le _ _ hlow, hbyte]
    rfl

theorem digits_written (value : ℕ) :
    Digits ((Nat.toDigits 10 value).map byte) ∧
      amount ((Nat.toDigits 10 value).map byte) = value := by
  have hdigit : ∀ c ∈ Nat.toDigits 10 value, c.isDigit = true := fun c hc =>
    Nat.isDigit_of_mem_toDigits (by decide) (by decide) hc
  have hsum : ∀ (cs : List Char) (n : ℕ), (∀ c ∈ cs, c.isDigit = true) →
      sum n (cs.map byte) = Nat.ofDigitChars 10 cs n := by
    intro cs
    induction cs with
    | nil =>
      intro n _
      rfl
    | cons c cs ih =>
      intro n hall
      rw [Nat.ofDigitChars_cons, ← ih _ fun d hd => hall d (List.mem_cons_of_mem c hd),
        ← (byte_digit (hall c List.mem_cons_self)).2, Nat.mul_comm 10]
      rfl
  refine ⟨⟨List.map_eq_nil_iff.not.mpr Nat.toDigits_ne_nil, ?_⟩, ?_⟩
  · intro b hb
    obtain ⟨c, hc, rfl⟩ := List.mem_map.mp hb
    exact (byte_digit (hdigit c hc)).1
  · rw [amount_eq, hsum _ _ hdigit, Nat.ofDigitChars_ten_toDigits]

theorem spelled_written (n : ℤ) : Spelled (written n) n := by
  obtain ⟨hdigits, hamount⟩ := digits_written n.natAbs
  rw [written]
  split_ifs with hneg
  · refine ⟨[byte '-'], _, rfl, .inr (.inr rfl), hdigits, ?_⟩
    rw [hamount, toward, if_pos (by decide)]
    omega
  · refine ⟨[], _, rfl, .inl rfl, hdigits, ?_⟩
    rw [hamount, toward, if_neg (by decide)]
    omega

theorem int_made (negative : Bool) (digits : Bytes) :
    i64 (if negative then -magnitude 0 digits else magnitude 0 digits) =
      i64 (toward negative (amount digits)) := by
  obtain ⟨m, hm, -, hsame⟩ := @le_magnitude negative 0 digits (by positivity)
  rw [amount_eq, ← hsame]
  exact congrArg i64 (by rw [← Nat.cast_zero, hm]; rfl)

theorem int_minus (digits : Bytes) (path : Path) :
    (int (.number (byte '-' :: digits)) path).1 = made true digits := by
  have h := int_made true digits
  simp only [↓reduceIte] at h
  rw [made, int]
  simp only [↓reduceIte, h]
  split_ifs
  · cases i64 (toward true (amount digits)) <;> rfl
  · rfl

theorem head_ne {b c : UInt8} (h : b ≠ c) (rest : Bytes) : (b :: rest).head? ≠ some c :=
  fun hsame => h (Option.some.inj hsame)

theorem int_bare {text : Bytes} (hminus : text.head? ≠ some (byte '-')) (path : Path) :
    (int (.number text) path).1 = made false text := by
  have h := int_made false text
  simp only [Bool.false_eq_true, ↓reduceIte] at h
  cases text with
  | nil => rfl
  | cons b rest =>
    have hb : b ≠ byte '-' := fun hb => hminus (congrArg some hb)
    rw [made, int]
    simp only [hb, Bool.false_eq_true, ↓reduceIte, h]
    split_ifs
    · cases i64 (toward false (amount (b :: rest))) <;> rfl
    · rfl

theorem int_eq_integer {token : Bytes} (h : IsNumber token) (path : Path) :
    (int (.number token) path).1 = integer token := by
  obtain ⟨m, w, f, e, rfl, hm, hw, -, -⟩ := h
  have hhead : ∃ d rest, w ++ f ++ e = d :: rest ∧ isDigit d = true := by
    rcases hw with rfl | ⟨d, ds, rfl, hd, -⟩
    · exact ⟨_, _, rfl, by decide⟩
    · exact ⟨d, _, rfl, hd⟩
  obtain ⟨d, rest, hrest, hd⟩ := hhead
  rw [List.append_assoc, List.append_assoc, ← List.append_assoc w, hrest]
  rcases hm with rfl | rfl
  · obtain ⟨hminus, hplus⟩ := digit_ne hd
    rw [List.nil_append, integer_bare hminus hplus]
    exact int_bare (head_ne hminus _) path
  · rw [List.singleton_append, integer_minus, if_neg (List.cons_ne_nil _ _)]
    exact int_minus _ path

theorem readers_agree {text : Bytes} {path : Path} {m n : ℤ} (hm : integer text = some m)
    (hn : (int (.number text) path).1 = some n) : m = n := by
  obtain ⟨⟨sign, digits, rfl, hsign, ⟨hne, hall⟩, hvalue⟩, -⟩ := integer_eq_some.mp hm
  rcases hsign with rfl | rfl | rfl
  · obtain ⟨b, rest, rfl⟩ := List.exists_cons_of_ne_nil hne
    obtain ⟨hminus, -⟩ := digit_ne (hall b List.mem_cons_self)
    rw [List.nil_append, int_bare (head_ne hminus _)] at hn
    exact hvalue.trans (made_eq_some.mp hn).2.1.symm
  · rw [List.singleton_append, int_bare (head_ne (by decide) _)] at hn
    exact absurd ((made_eq_some.mp hn).1 _ List.mem_cons_self) (by decide)
  · rw [List.singleton_append, int_minus] at hn
    exact hvalue.trans (made_eq_some.mp hn).2.1.symm

theorem spelled_whole {text : Bytes} {n : ℤ} (h : Spelled text n) :
    ∀ b ∈ text, b ≠ byte '.' ∧ b ≠ byte 'e' ∧ b ≠ byte 'E' := by
  obtain ⟨sign, digits, rfl, hsign, ⟨-, hall⟩, -⟩ := h
  intro b hb
  rcases List.mem_append.mp hb with hb | hb
  · rcases hsign with rfl | rfl | rfl
    · cases hb
    · obtain rfl := List.mem_singleton.mp hb
      decide
    · obtain rfl := List.mem_singleton.mp hb
      decide
  · have hdigit := hall b hb
    refine ⟨?_, ?_, ?_⟩ <;> rintro rfl <;> exact absurd hdigit (by decide)

end Readers

/-- A text is the integer it writes exactly where it writes one an `Int` holds, the text of every
`Int` among them. A number of a document is, exactly where it has no point and no exponent as well,
and of whatever both readers answer they answer the same. -/
theorem integers_are_read_exactly :
    (∀ text n, integer text = some n ↔ Spelled text n ∧ IsInt n) ∧
    (∀ n, IsInt n → integer (written n) = some n) ∧
    (∀ token path, IsNumber token → ∀ n, (int (.number token) path).1 = some n ↔
      (∀ b ∈ token, b ≠ byte '.' ∧ b ≠ byte 'e' ∧ b ≠ byte 'E') ∧ Spelled token n ∧ IsInt n) ∧
    ∀ text path m n, integer text = some m → (int (.number text) path).1 = some n → m = n := by
  refine ⟨fun _ _ => integer_eq_some, ?_, ?_, fun _ _ _ _ => readers_agree⟩
  · intro n hn
    exact integer_eq_some.mpr ⟨spelled_written n, hn⟩
  · intro token path htoken n
    rw [int_eq_integer htoken, integer_eq_some]
    exact ⟨fun h => ⟨spelled_whole h.1, h⟩, fun h => h.2⟩

end SoutherNative.IntegerText
