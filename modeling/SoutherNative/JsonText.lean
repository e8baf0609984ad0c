import SoutherNative.JsonAccepting

set_option autoImplicit false

/-!
# What a text says

`Unescaped` of the `json-syntax` crate: the UTF-8 a string of a document says, one byte at a time.
It indexes and expects where the parser has held the text to be well formed; each of those is a
`Panic` here, and text of the grammar reaches none.
-/
namespace SoutherNative.JsonText
open Utf8 JsonScanner JsonGrammar JsonSyntax JsonAccepting

inductive Panic
  | outOfBounds
  | overflow
  | expected (what : String)
  | unreachable (what : String)
  deriving DecidableEq

/-- `Unescaped.rest` is `written[at..]` and `Unescaped.pending` is `pending[from..to]`. -/
structure Unescaped where
  rest : Bytes
  pending : Bytes

namespace Unescaped

def paired (point : ℕ) (rest : Bytes) : Except Panic (ℕ × Bytes) :=
  if rest.length < 2 then .error .outOfBounds
  else
    match hex4 (rest.drop 2) with
    | none => .error (.expected "held to be a low half")
    | some low =>
      if low < 0xdc00 then .error .overflow
      else .ok (0x10000 + (point - 0xd800) * 0x400 + (low - 0xdc00), rest.drop 6)

def codePoint (first : ℕ) (rest : Bytes) : Except Panic (ℕ × Bytes) :=
  if isHigh first then paired first rest else .ok (first, rest)

def character (point : ℕ) : Except Panic Char :=
  if point.isValidChar then .ok (Char.ofNat point)
  else .error (.expected "held to be a character")

/-- What a `\\u` escape says, from its first digit, with what is left after it. -/
def unicode (rest : Bytes) : Except Panic (Char × Bytes) :=
  match hex4 rest with
  | none => .error (.expected "held to be four digits")
  | some first => do
    let (point, rest) ← codePoint first (rest.drop 4)
    let c ← character point
    return (c, rest)

/-- The character a plain escape stands for: `"`, `\` and `/` stand for themselves. -/
def plain (escaped : UInt8) : UInt8 :=
  if escaped = byte 'b' then 0x08
  else if escaped = byte 'f' then 0x0c
  else if escaped = byte 'n' then byte '\n'
  else if escaped = byte 'r' then byte '\r'
  else if escaped = byte 't' then byte '\t'
  else escaped

def next (u : Unescaped) : Except Panic (Option (UInt8 × Unescaped)) :=
  match u.pending with
  | b :: pending => .ok (some (b, ⟨u.rest, pending⟩))
  | [] =>
    match u.rest with
    | [] => .ok none
    | b :: rest =>
      if b = byte '\\' then
        match rest with
        | [] => .error .outOfBounds
        | escaped :: rest =>
          if escaped = byte 'u' then
            match unicode rest with
            | .error panic => .error panic
            | .ok (c, rest) =>
              match String.utf8EncodeChar c with
              | [] => .error .outOfBounds
              | b :: pending => .ok (some (b, ⟨rest, pending⟩))
          else .ok (some (plain escaped, ⟨rest, []⟩))
      else .ok (some (b, ⟨rest, []⟩))

theorem hex4_length {rest : Bytes} {point : ℕ} (h : hex4 rest = some point) :
    4 ≤ rest.length := by
  match rest with
  | [] | [_] | [_, _] | [_, _, _] => simp [hex4] at h
  | _ :: _ :: _ :: _ :: _ => simp

theorem paired_length {rest left : Bytes} {high point : ℕ}
    (h : paired high rest = .ok (point, left)) : left.length ≤ rest.length := by
  unfold paired at h
  split_ifs at h
  cases hx : hex4 (rest.drop 2) with
  | none => simp [hx] at h
  | some low =>
    simp only [hx] at h
    split_ifs at h
    simp only [Except.ok.injEq, Prod.mk.injEq] at h
    rw [← h.2, List.length_drop]
    omega

theorem unicode_length {rest left : Bytes} {c : Char} (h : unicode rest = .ok (c, left)) :
    left.length + 4 ≤ rest.length := by
  unfold unicode at h
  cases hx : hex4 rest with
  | none => simp [hx] at h
  | some point =>
    have hfour := hex4_length hx
    simp only [hx] at h
    obtain ⟨⟨value, after⟩, hv, h⟩ := bind_eq_ok.mp h
    obtain ⟨c', -, h⟩ := bind_eq_ok.mp h
    simp only [pure, Except.pure, Except.ok.injEq, Prod.mk.injEq] at h
    rw [← h.2]
    unfold codePoint at hv
    split_ifs at hv with hhigh
    · have := paired_length hv
      rw [List.length_drop] at this
      omega
    · simp only [Except.ok.injEq, Prod.mk.injEq] at hv
      rw [← hv.2, List.length_drop]
      omega

def left (u : Unescaped) : ℕ := 4 * u.rest.length + u.pending.length

theorem next_left {u v : Unescaped} {b : UInt8} (h : u.next = .ok (some (b, v))) :
    v.left < u.left := by
  obtain ⟨rest, pending⟩ := u
  unfold next at h
  cases pending with
  | cons x pending =>
    simp only [Except.ok.injEq, Option.some.injEq, Prod.mk.injEq] at h
    rw [← h.2]
    simp [left]
  | nil =>
    match rest with
    | [] => simp at h
    | [x] =>
      dsimp only at h
      split_ifs at h
      simp only [Except.ok.injEq, Option.some.injEq, Prod.mk.injEq] at h
      rw [← h.2]
      simp [left]
    | x :: escaped :: rest =>
      dsimp only at h
      split_ifs at h with hx hu
      · cases hc : unicode rest with
        | error panic => simp [hc] at h
        | ok said =>
          obtain ⟨c, after⟩ := said
          simp only [hc] at h
          cases he : String.utf8EncodeChar c with
          | nil => simp [he] at h
          | cons y pending =>
            simp only [he, Except.ok.injEq, Option.some.injEq, Prod.mk.injEq] at h
            have hlen := String.length_utf8EncodeChar c
            have hsize := c.utf8Size_le_four
            have := unicode_length hc
            rw [← h.2]
            simp only [he, List.length_cons] at hlen
            simp only [left, List.length_cons, List.length_nil]
            omega
      all_goals
        simp only [Except.ok.injEq, Option.some.injEq, Prod.mk.injEq] at h
        rw [← h.2]
        simp only [left, List.length_cons, List.length_nil]
        omega

def collect (u : Unescaped) : Except Panic Bytes :=
  match _h : u.next with
  | .error panic => .error panic
  | .ok none => .ok []
  | .ok (some (b, v)) =>
    match collect v with
    | .error panic => .error panic
    | .ok bytes => .ok (b :: bytes)
termination_by u.left
decreasing_by exact next_left _h

theorem collect_next {u v : Unescaped} {b : UInt8} (h : u.next = .ok (some (b, v))) :
    u.collect = v.collect.map (b :: ·) := by
  rw [collect]
  split
  · rename_i h'
    exact absurd (h.symm.trans h') (by simp)
  · rename_i h'
    exact absurd (h.symm.trans h') (by simp)
  · rename_i b' v' h'
    rw [h, Except.ok.injEq, Option.some.injEq, Prod.mk.injEq] at h'
    obtain ⟨rfl, rfl⟩ := h'
    cases v.collect <;> rfl

theorem map_map_append {x : Except Panic Bytes} (p q : Bytes) :
    (x.map (q ++ ·)).map (p ++ ·) = x.map ((p ++ q) ++ ·) := by
  cases x <;> simp [Except.map]

theorem collect_nil : collect ⟨[], []⟩ = .ok [] := by
  rw [collect]
  rfl

theorem collect_pending (rest pending : Bytes) :
    collect ⟨rest, pending⟩ = (collect ⟨rest, []⟩).map (pending ++ ·) := by
  induction pending with
  | nil => cases collect ⟨rest, []⟩ <;> rfl
  | cons b pending ih =>
    have hnext : next ⟨rest, b :: pending⟩ = .ok (some (b, ⟨rest, pending⟩)) := rfl
    rw [collect_next hnext, ih]
    exact map_map_append [b] pending

theorem collect_bare {w rest : Bytes} (hw : ∀ b ∈ w, b ≠ byte '\\') :
    collect ⟨w ++ rest, []⟩ = (collect ⟨rest, []⟩).map (w ++ ·) := by
  induction w with
  | nil =>
    rw [List.nil_append]
    cases collect ⟨rest, []⟩ <;> rfl
  | cons b w ih =>
    have hb := hw b (by simp)
    have hnext : next ⟨b :: w ++ rest, []⟩ = .ok (some (b, ⟨w ++ rest, []⟩)) := by
      simp only [next, List.cons_append, hb, ↓reduceIte]
    rw [collect_next hnext, ih (fun x hx => hw x (by simp [hx]))]
    exact map_map_append [b] w

theorem collect_plain {escaped : UInt8} {rest : Bytes} (h : escaped ≠ byte 'u') :
    collect ⟨byte '\\' :: escaped :: rest, []⟩ =
      (collect ⟨rest, []⟩).map ([plain escaped] ++ ·) := by
  have hnext : next ⟨byte '\\' :: escaped :: rest, []⟩ =
      .ok (some (plain escaped, ⟨rest, []⟩)) := by
    simp only [next, h, ↓reduceIte]
  exact collect_next hnext

theorem collect_unicode {rest after : Bytes} {c : Char} (h : unicode rest = .ok (c, after)) :
    collect ⟨byte '\\' :: byte 'u' :: rest, []⟩ =
      (collect ⟨after, []⟩).map (String.utf8EncodeChar c ++ ·) := by
  obtain ⟨b, pending, he⟩ := List.exists_cons_of_ne_nil (encodeChar_ne_nil c)
  have hnext : next ⟨byte '\\' :: byte 'u' :: rest, []⟩ =
      .ok (some (b, ⟨after, pending⟩)) := by
    simp only [next, ↓reduceIte, h, he]
  rw [collect_next hnext, collect_pending, he]
  exact map_map_append [b] pending

theorem nibble_lt {b : UInt8} {v : ℕ} (h : nibble b = some v) : v < 16 := by
  unfold nibble at h
  have h0 : (byte '0').toNat = 48 := rfl
  have h9 : (byte '9').toNat = 57 := rfl
  have ha : (byte 'a').toNat = 97 := rfl
  have hf : (byte 'f').toNat = 102 := rfl
  have hA : (byte 'A').toNat = 65 := rfl
  have hF : (byte 'F').toNat = 70 := rfl
  have hb := b.toNat_lt
  simp only [UInt8.le_iff_toNat_le] at h
  split_ifs at h with h1 h2 h3
  all_goals
    simp only [Option.some.injEq, UInt8.toNat_sub] at h
    omega

theorem hex4_lt {a b c d : UInt8} {point : ℕ} (h : hex4 [a, b, c, d] = some point) :
    point < 0x10000 := by
  simp only [hex4, Option.bind_eq_bind, Option.bind_eq_some_iff] at h
  obtain ⟨va, ha, vb, hb, vc, hc, vd, hd, h⟩ := h
  have := nibble_lt ha
  have := nibble_lt hb
  have := nibble_lt hc
  have := nibble_lt hd
  simp only [pure, Option.some.injEq] at h
  omega

theorem unicode_unit {a b c d : UInt8} {point : ℕ} {rest : Bytes}
    (hv : hex4 [a, b, c, d] = some point) (hhigh : isHigh point = false)
    (hlow : isLow point = false) :
    unicode (a :: b :: c :: d :: rest) = .ok (Char.ofNat point, rest) := by
  have hx : hex4 (a :: b :: c :: d :: rest) = some point := hv
  have hlt := hex4_lt hv
  have hvalid : point.isValidChar := by
    simp only [isHigh, isLow, Bool.and_eq_false_iff, decide_eq_false_iff_not] at hhigh hlow
    simp only [Nat.isValidChar]
    omega
  simp only [unicode, hx, codePoint, hhigh, Bool.false_eq_true, ↓reduceIte, bind, Except.bind,
    character, hvalid]
  rfl

theorem unicode_pair {a b c d e f g h x y : UInt8} {high low point : ℕ} {rest : Bytes}
    (hv : hex4 [a, b, c, d] = some high) (hv' : hex4 [e, f, g, h] = some low)
    (hhigh : isHigh high = true) (hlow : isLow low = true)
    (hp : 0x10000 + (high - 0xd800) * 0x400 + (low - 0xdc00) = point) :
    unicode (a :: b :: c :: d :: x :: y :: e :: f :: g :: h :: rest) =
      .ok (Char.ofNat point, rest) := by
  have hx : hex4 (a :: b :: c :: d :: x :: y :: e :: f :: g :: h :: rest) = some high := hv
  have hy : hex4 (e :: f :: g :: h :: rest) = some low := hv'
  simp only [isHigh, isLow, Bool.and_eq_true, decide_eq_true_eq] at hhigh hlow
  have hpaired : paired high (x :: y :: e :: f :: g :: h :: rest) = .ok (point, rest) := by
    have hge : ¬ low < 0xdc00 := by omega
    have hlen : ¬ (x :: y :: e :: f :: g :: h :: rest).length < 2 := by simp
    simp only [paired, hlen, ↓reduceIte, List.drop_succ_cons, List.drop_zero, hy, hge, hp]
  have hvalid : point.isValidChar := by
    simp only [Nat.isValidChar]
    omega
  simp only [unicode, hx, codePoint, isHigh, hhigh, decide_true, Bool.and_self,
    ↓reduceIte, List.drop_succ_cons, List.drop_zero, hpaired, bind, Except.bind, character,
    hvalid, pure, Except.pure]

theorem collect_escape {w rest : Bytes} {c : Char} (h : Escape w c) :
    collect ⟨w ++ rest, []⟩ = (collect ⟨rest, []⟩).map (String.utf8EncodeChar c ++ ·) := by
  cases h with
  | unit hv hhigh hlow => exact collect_unicode (unicode_unit hv hhigh hlow)
  | pair hv hv' hhigh hlow => exact collect_unicode (unicode_pair hv hv' hhigh hlow rfl)
  | _ =>
    rw [encodeChar_ascii (by decide)]
    exact collect_plain (by decide)

theorem collect_piece {w rest : Bytes} {c : Char} (h : Piece w c) :
    collect ⟨w ++ rest, []⟩ = (collect ⟨rest, []⟩).map (String.utf8EncodeChar c ++ ·) := by
  cases h with
  | plain _ hc hq hs => exact collect_bare (fun b hb => (piece_plains hc hq hs b hb).2.1)
  | escape he => exact collect_escape he

end Unescaped

def bytes (text : Text) : Except Panic Bytes := Unescaped.collect ⟨text.written, []⟩

/-- A text of the grammar says the characters it spells, in UTF-8. -/
theorem bytes_spells {text : Text} {cs : List Char} (h : Spells text.written cs) :
    bytes text = .ok (encode cs) := by
  unfold bytes
  generalize text.written = written at h
  induction h with
  | nil => exact Unescaped.collect_nil
  | cons hpiece _ ih =>
    rw [Unescaped.collect_piece hpiece, ih]
    rfl

end SoutherNative.JsonText
