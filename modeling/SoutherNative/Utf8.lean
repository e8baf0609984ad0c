import Mathlib

set_option autoImplicit false

/-!
# UTF-8 over lists of bytes

`fromUtf8` reads a run of bytes as the scalar values it encodes, or answers how many of them are
well formed. The encoding of one scalar value is the core library's.
-/
namespace SoutherNative.Utf8

abbrev Bytes := List UInt8

def encode (cs : List Char) : Bytes := cs.flatMap String.utf8EncodeChar

/-- The scalar value `bytes` begin with, where they begin with a well formed one. -/
def decodeChar? (bytes : Bytes) : Option Char := bytes.toByteArray.utf8DecodeChar? 0

@[simp]
theorem encode_nil : encode [] = [] := rfl

@[simp]
theorem encode_cons (c : Char) (cs : List Char) :
    encode (c :: cs) = String.utf8EncodeChar c ++ encode cs := rfl

@[simp]
theorem encode_append (cs ds : List Char) : encode (cs ++ ds) = encode cs ++ encode ds := by
  simp [encode]

theorem encodeChar_ne_nil (c : Char) : String.utf8EncodeChar c ≠ [] := by
  intro h
  have hl := String.length_utf8EncodeChar c
  rw [h] at hl
  have hp := c.utf8Size_pos
  simp at hl
  omega

theorem decodeChar?_encodeChar_append (c : Char) (bytes : Bytes) :
    decodeChar? (String.utf8EncodeChar c ++ bytes) = some c := by
  unfold decodeChar?
  rw [List.toByteArray_append]
  exact ByteArray.utf8DecodeChar?_utf8EncodeChar_append

theorem eq_of_decodeChar?_eq_some {bytes : Bytes} {c : Char} (h : decodeChar? bytes = some c) :
    bytes = String.utf8EncodeChar c ++ bytes.drop c.utf8Size := by
  obtain ⟨l, hl⟩ := ByteArray.exists_of_utf8DecodeChar?_eq_some h
  have hb : bytes = String.utf8EncodeChar c ++ l.data.toList := by
    have := congrArg (fun b => b.data.toList) hl
    simpa using this
  have hd : bytes.drop c.utf8Size = l.data.toList := by
    rw [hb]
    conv_lhs => rw [← String.length_utf8EncodeChar c]
    exact List.drop_left
  rw [hd]
  exact hb

def fromUtf8 (bytes : Bytes) : Except ℕ (List Char) :=
  match bytes with
  | [] => .ok []
  | b :: rest =>
    match decodeChar? (b :: rest) with
    | none => .error 0
    | some c =>
      match fromUtf8 (rest.drop (c.utf8Size - 1)) with
      | .ok cs => .ok (c :: cs)
      | .error valid => .error (c.utf8Size + valid)
termination_by bytes.length
decreasing_by simp only [List.length_drop, List.length_cons]; omega

theorem drop_encodeChar (c : Char) (bytes : Bytes) {b : UInt8} {rest : Bytes}
    (h : String.utf8EncodeChar c ++ bytes = b :: rest) : rest.drop (c.utf8Size - 1) = bytes := by
  have hp := c.utf8Size_pos
  have hd : (b :: rest).drop c.utf8Size = bytes := by
    rw [← h, ← String.length_utf8EncodeChar c]
    exact List.drop_left
  obtain ⟨n, hn⟩ : ∃ n, c.utf8Size = n + 1 := ⟨c.utf8Size - 1, by omega⟩
  rw [hn] at hd ⊢
  simpa using hd

theorem fromUtf8_encodeChar_append (c : Char) (bytes : Bytes) :
    fromUtf8 (String.utf8EncodeChar c ++ bytes) =
      match fromUtf8 bytes with
      | .ok cs => .ok (c :: cs)
      | .error valid => .error (c.utf8Size + valid) := by
  cases h : String.utf8EncodeChar c ++ bytes with
  | nil => exact absurd (List.append_eq_nil_iff.mp h).1 (encodeChar_ne_nil c)
  | cons b rest =>
    have hd : decodeChar? (b :: rest) = some c := h ▸ decodeChar?_encodeChar_append c bytes
    rw [fromUtf8, hd]
    simp only [drop_encodeChar c bytes h]

/-- What is well formed is what encodes some scalar values, and they are read back. -/
theorem fromUtf8_eq_ok (bytes : Bytes) (cs : List Char) :
    fromUtf8 bytes = .ok cs ↔ bytes = encode cs := by
  constructor
  · intro h
    induction hn : bytes.length using Nat.strong_induction_on generalizing bytes cs with
    | _ n ih =>
      cases bytes with
      | nil =>
        rw [fromUtf8] at h
        simp only [Except.ok.injEq] at h
        subst h
        rfl
      | cons b rest =>
        rw [fromUtf8] at h
        cases hd : decodeChar? (b :: rest) with
        | none => simp [hd] at h
        | some c =>
          simp only [hd] at h
          have hb := eq_of_decodeChar?_eq_some hd
          have hr := drop_encodeChar c _ hb.symm
          cases hf : fromUtf8 (rest.drop (c.utf8Size - 1)) with
          | error valid => simp [hf] at h
          | ok ds =>
            simp only [hf, Except.ok.injEq] at h
            subst h
            have hs : (rest.drop (c.utf8Size - 1)).length < n := by
              simp only [List.length_drop, List.length_cons] at hn ⊢
              omega
            have htail := ih _ hs _ _ hf rfl
            rw [hb, ← hr, htail]
            rfl
  · rintro rfl
    induction cs with
    | nil => simp [fromUtf8]
    | cons c cs ih => rw [encode_cons, fromUtf8_encodeChar_append, ih]

theorem encode_injective {cs ds : List Char} (h : encode cs = encode ds) : cs = ds := by
  have hc := (fromUtf8_eq_ok (encode cs) cs).mpr rfl
  have hd := (fromUtf8_eq_ok (encode cs) ds).mpr h
  rw [hc] at hd
  exact Except.ok.inj hd

/-- One byte encodes a scalar value below U+0080, and it is that value. -/
theorem encodeChar_ascii {c : Char} (h : c.toNat < 0x80) :
    String.utf8EncodeChar c = [UInt8.ofNat c.toNat] := by
  unfold String.utf8EncodeChar
  have hv : c.val.toNat ≤ 0x7f := by
    change c.toNat ≤ 0x7f
    omega
  simp only [hv, ↓reduceIte]
  rfl

/-- Past U+007F every byte of an encoding has its high bit set. -/
theorem encodeChar_not_ascii {c : Char} (h : 0x80 ≤ c.toNat) :
    ∀ b ∈ String.utf8EncodeChar c, 0x80 ≤ b.toNat := by
  intro b hb
  unfold String.utf8EncodeChar at hb
  have hv : ¬ c.val.toNat ≤ 0x7f := by
    change ¬ c.toNat ≤ 0x7f
    omega
  simp only [hv, ↓reduceIte] at hb
  split_ifs at hb <;> simp only [List.mem_cons, List.not_mem_nil, or_false] at hb
  all_goals
    rcases hb with rfl | rfl | rfl | rfl <;> simp <;> omega

/-- Bytes below 0x80 at the front of an encoding are scalar values of their own. -/
theorem encode_ascii_prefix {w rest : Bytes} {ds : List Char} (hw : ∀ b ∈ w, b.toNat < 0x80)
    (h : encode ds = w ++ rest) : ∃ es, encode es = rest ∧ es.length + w.length = ds.length := by
  induction w generalizing ds with
  | nil => exact ⟨ds, h, rfl⟩
  | cons b w ih =>
    cases ds with
    | nil => simp at h
    | cons d ds =>
      have hd : d.toNat < 0x80 := by
        by_contra hge
        obtain ⟨x, xs, hx⟩ := List.exists_cons_of_ne_nil (encodeChar_ne_nil d)
        have hb : x = b := by
          rw [encode_cons, hx, List.cons_append, List.cons_append] at h
          exact (List.cons.inj h).1
        have h1 := encodeChar_not_ascii (c := d) (by omega) x (by simp [hx])
        have h2 := hw b (by simp)
        rw [hb] at h1
        omega
      rw [encode_cons, encodeChar_ascii hd, List.cons_append, List.nil_append] at h
      obtain ⟨es, hes, hl⟩ := ih (fun x hx => hw x (by simp [hx])) (List.cons.inj h).2
      exact ⟨es, hes, by simp only [List.length_cons]; omega⟩

end SoutherNative.Utf8
