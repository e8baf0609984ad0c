import SoutherNative.JsonReading

set_option autoImplicit false

/-!
# Every document is read

The other half of what the parser does: bytes the grammar writes a document as are accepted, as
long as no more containers are open at once than the parser has room for. Each scanner gets a lemma
saying what it leaves of the bytes it is the scanner of.
-/
namespace SoutherNative.JsonAccepting
open Utf8 JsonScanner JsonScanner.Parser JsonGrammar JsonSyntax JsonReading

def Ends (rest : Bytes) : Prop :=
  ∀ b ∈ rest.head?, isDigit b = false ∧ b ≠ byte '.' ∧ b ≠ byte 'e' ∧ b ≠ byte 'E'

theorem ends_cons {b : UInt8} {rest : Bytes} (h : isSpace b = true ∨ b = byte ',' ∨ b = byte ']' ∨
    b = byte '}') : Ends (b :: rest) := by
  intro x hx
  simp only [List.head?_cons, Option.mem_def, Option.some.injEq] at hx
  subst hx
  simp only [isSpace, Bool.or_eq_true, decide_eq_true_eq] at h
  rcases h with ((((rfl | rfl) | rfl) | rfl) | rfl | rfl | rfl) <;> decide

theorem ends_spaces {w rest : Bytes} (hw : Spaces w) (hr : Ends rest) : Ends (w ++ rest) := by
  cases w with
  | nil => exact hr
  | cons b w => exact ends_cons (.inl (hw b (by simp)))

theorem advance_rest {p : Parser} {w rest : Bytes} (h : p.rest = w ++ rest) :
    (p.advance w.length).rest = rest := by
  rw [advance, h, List.drop_left]

theorem advance_advance (p : Parser) (m n : ℕ) : (p.advance m).advance n = p.advance (m + n) := by
  simp [advance, List.drop_drop, Nat.add_assoc]

theorem peek_of_rest {p : Parser} {b : UInt8} {rest : Bytes} (h : p.rest = b :: rest) :
    p.peek = some b := by
  rw [peek, h, List.head?_cons]

theorem takeWhile_append_stop {f : UInt8 → Bool} {w rest : Bytes} (hw : ∀ b ∈ w, f b = true)
    (hr : ∀ b ∈ rest.head?, f b = false) : (w ++ rest).takeWhile f = w := by
  rw [List.takeWhile_append_of_pos hw]
  cases rest with
  | nil => simp
  | cons b rest =>
    have hb := hr b (by simp)
    simp [hb]

theorem spaces_eq {p : Parser} {w rest : Bytes} (hw : Spaces w) (hr : p.rest = w ++ rest)
    (hs : ∀ b ∈ rest.head?, isSpace b = false) : p.spaces = p.advance w.length := by
  rw [spaces, hr, takeWhile_append_stop hw hs]

theorem digits_eq {p : Parser} {ds rest : Bytes} (hd : Digits ds) (hr : p.rest = ds ++ rest)
    (hs : ∀ b ∈ rest.head?, isDigit b = false) : p.digits = .ok (p.advance ds.length) := by
  have hpos := List.length_pos_iff.mpr hd.1
  have hne : ¬ (p.advance ds.length).offset = p.offset := by
    simp only [advance]
    omega
  unfold digits
  simp only [hr, takeWhile_append_stop hd.2 hs, hne, ↓reduceIte]

theorem one_le_digit {d : UInt8} (hd : isDigit d = true) (hz : d ≠ byte '0') :
    byte '1' ≤ d ∧ d ≤ byte '9' := by
  simp only [isDigit, Bool.and_eq_true, decide_eq_true_eq] at hd
  refine ⟨?_, hd.2⟩
  have h0 : (byte '0').toNat = 48 := rfl
  have h1 : (byte '1').toNat = 49 := rfl
  have hne : d.toNat ≠ (byte '0').toNat := fun h => hz (UInt8.toNat_inj.mp h)
  have hle := UInt8.le_iff_toNat_le.mp hd.1
  rw [UInt8.le_iff_toNat_le]
  omega

theorem whole_eq {p : Parser} {w rest : Bytes} (hw : Whole w) (hr : p.rest = w ++ rest)
    (hs : ∀ b ∈ rest.head?, isDigit b = false) : p.whole = .ok (p.advance w.length) := by
  unfold whole
  rcases hw with rfl | ⟨d, ds, rfl, hd, hz, hall⟩
  · simp only [peek_of_rest hr, ↓reduceIte]
    rfl
  · simp only [peek_of_rest hr, hz, ↓reduceIte, one_le_digit hd hz, and_self]
    refine digits_eq ⟨by simp, ?_⟩ hr hs
    intro b hb
    rcases List.mem_cons.mp hb with rfl | hb
    · exact hd
    · exact hall b hb

theorem fraction_eq {p : Parser} {f rest : Bytes} (hf : Fraction f) (hr : p.rest = f ++ rest)
    (hs : ∀ b ∈ rest.head?, isDigit b = false ∧ b ≠ byte '.') :
    p.fraction = .ok (p.advance f.length) := by
  unfold fraction
  rcases hf with rfl | ⟨ds, rfl, hd⟩
  · have hk : p.peek ≠ some (byte '.') := fun hk =>
      (hs _ (by rwa [peek, hr, List.nil_append] at hk)).2 rfl
    simp only [hk, ↓reduceIte, List.length_nil]
    rfl
  · have hr' : (p.advance 1).rest = ds ++ rest := advance_rest (w := [byte '.']) hr
    simp only [peek_of_rest hr, ↓reduceIte]
    rw [digits_eq hd hr' (fun b hb => (hs b hb).1), advance_advance, List.length_cons,
      Nat.add_comm]

theorem digit_not_sign {d : UInt8} (hd : isDigit d = true) : d ≠ byte '+' ∧ d ≠ byte '-' := by
  constructor <;> rintro rfl <;> exact absurd hd (by decide)

theorem exponent_eq {p : Parser} {e rest : Bytes} (he : Exponent e) (hr : p.rest = e ++ rest)
    (hs : ∀ b ∈ rest.head?, isDigit b = false ∧ b ≠ byte 'e' ∧ b ≠ byte 'E') :
    p.exponent = .ok (p.advance e.length) := by
  unfold exponent
  rcases he with rfl | ⟨mark, sign, ds, rfl, hmark, hsign, hd⟩
  · have hk : ¬ (p.peek = some (byte 'e') ∨ p.peek = some (byte 'E')) := by
      rw [peek, hr, List.nil_append]
      rintro (hk | hk)
      · exact (hs _ hk).2.1 rfl
      · exact (hs _ hk).2.2 rfl
    simp only [hk, ↓reduceIte, List.length_nil]
    rfl
  · have hk : p.peek = some (byte 'e') ∨ p.peek = some (byte 'E') := by
      rw [peek_of_rest hr, Option.some.injEq, Option.some.injEq]
      exact hmark
    have hr' : (p.advance 1).rest = sign ++ (ds ++ rest) :=
      advance_rest (w := [mark]) (by simpa [List.append_assoc] using hr)
    have hstop : ∀ b ∈ rest.head?, isDigit b = false := fun b hb => (hs b hb).1
    have hlen : (mark :: sign ++ ds).length = 1 + sign.length + ds.length := by
      simp only [List.cons_append, List.length_cons, List.length_append]
      omega
    simp only [hk, ↓reduceIte]
    rcases hsign with rfl | hsign
    · obtain ⟨d, ds', rfl⟩ := List.exists_cons_of_ne_nil hd.1
      have hp : (p.advance 1).peek = some d := peek_of_rest hr'
      have hdigit := digit_not_sign (hd.2 d (by simp))
      have hn : ¬ ((p.advance 1).peek = some (byte '+') ∨
          (p.advance 1).peek = some (byte '-')) := by
        rw [hp, Option.some.injEq, Option.some.injEq]
        exact not_or.mpr hdigit
      simp only [hn, ↓reduceIte]
      rw [digits_eq hd hr' hstop, advance_advance, hlen, List.length_nil, Nat.add_zero]
    · obtain ⟨s, rfl, hss⟩ : ∃ s, sign = [s] ∧ (s = byte '+' ∨ s = byte '-') := by
        rcases hsign with rfl | rfl
        · exact ⟨_, rfl, .inl rfl⟩
        · exact ⟨_, rfl, .inr rfl⟩
      have hn : (p.advance 1).peek = some (byte '+') ∨ (p.advance 1).peek = some (byte '-') := by
        rw [peek_of_rest hr', Option.some.injEq, Option.some.injEq]
        exact hss
      have hr'' : ((p.advance 1).advance 1).rest = ds ++ rest := advance_rest (w := [s]) hr'
      simp only [hn, ↓reduceIte]
      rw [digits_eq hd hr'' hstop, advance_advance, advance_advance, hlen, List.length_singleton,
        Nat.add_assoc]

theorem Ends.digit {rest : Bytes} (h : Ends rest) : ∀ b ∈ rest.head?, isDigit b = false :=
  fun b hb => (h b hb).1

theorem exponent_ends {e rest : Bytes} (he : Exponent e) (hr : Ends rest) :
    ∀ b ∈ (e ++ rest).head?, isDigit b = false ∧ b ≠ byte '.' := by
  intro b hb
  rcases he with rfl | ⟨mark, sign, ds, rfl, hmark, -⟩
  · exact ⟨(hr b hb).1, (hr b hb).2.1⟩
  · simp only [List.cons_append, List.head?_cons, Option.mem_def, Option.some.injEq] at hb
    subst hb
    rcases hmark with rfl | rfl <;> decide

theorem fraction_ends {f rest : Bytes} (hf : Fraction f)
    (hr : ∀ b ∈ rest.head?, isDigit b = false ∧ b ≠ byte '.') :
    ∀ b ∈ (f ++ rest).head?, isDigit b = false := by
  intro b hb
  rcases hf with rfl | ⟨ds, rfl, -⟩
  · exact (hr b hb).1
  · simp only [List.cons_append, List.head?_cons, Option.mem_def, Option.some.injEq] at hb
    subst hb
    decide

theorem whole_head {w : Bytes} (hw : Whole w) (rest : Bytes) :
    ∃ d, (w ++ rest).head? = some d ∧ isDigit d = true := by
  rcases hw with rfl | ⟨d, ds, rfl, hd, -⟩
  · exact ⟨_, rfl, by decide⟩
  · exact ⟨d, rfl, hd⟩

theorem minus_eq {p : Parser} {m w rest : Bytes} (hm : Minus m) (hw : Whole w)
    (hr : p.rest = m ++ (w ++ rest)) :
    (if p.peek = some (byte '-') then p.advance 1 else p) = p.advance m.length := by
  rcases hm with rfl | rfl
  · obtain ⟨d, hd, hdigit⟩ := whole_head hw rest
    have hp : p.peek = some d := by rwa [peek, hr, List.nil_append]
    have hk : p.peek ≠ some (byte '-') := by
      rw [hp, ne_eq, Option.some.injEq]
      exact (digit_not_sign hdigit).2
    simp only [hk, ↓reduceIte]
    rfl
  · simp only [peek_of_rest hr, ↓reduceIte, List.length_singleton]

theorem number_eq {p : Parser} {n rest : Bytes} (hn : IsNumber n) (hr : p.rest = n ++ rest)
    (hs : Ends rest) : p.number = .ok (p.advance n.length) := by
  obtain ⟨m, w, f, e, rfl, hm, hw, hf, he⟩ := hn
  have h0 : p.rest = m ++ (w ++ (f ++ (e ++ rest))) := by simpa [List.append_assoc] using hr
  have h1 := advance_rest h0
  have h2 := advance_rest h1
  have h3 := advance_rest h2
  have hstop := exponent_ends he hs
  unfold number
  simp only [minus_eq hm hw h0]
  rw [whole_eq hw h1 (fraction_ends hf hstop)]
  change (((p.advance m.length).advance w.length).fraction >>= _) = _
  rw [fraction_eq hf h2 hstop]
  change (((p.advance m.length).advance w.length).advance f.length).exponent = _
  rw [exponent_eq he h3 (fun b hb => ⟨(hs b hb).1, (hs b hb).2.2⟩)]
  simp only [advance_advance, List.length_append]

theorem keyword_eq {p : Parser} {w rest : Bytes} {e : Event} (hr : p.rest = w ++ rest) :
    p.keyword w e = .ok (e, (p.advance w.length).afterAValue) := by
  induction w generalizing p with
  | nil => rfl
  | cons b w ih =>
    have hr' : (p.advance 1).rest = w ++ rest := advance_rest (w := [b]) hr
    rw [keyword, if_pos (peek_of_rest hr), ih hr', advance_advance, List.length_cons,
      Nat.add_comm]

theorem hex4_eq {p : Parser} {a b c d : UInt8} {point : ℕ} {rest : Bytes}
    (hv : JsonScanner.hex4 [a, b, c, d] = some point) (hr : p.rest = a :: b :: c :: d :: rest) :
    p.hex4 = .ok (point, p.advance 4) := by
  have hfour : JsonScanner.hex4 p.rest = some point := by
    rw [hr]
    exact hv
  rw [Parser.hex4, hfour]

theorem escape_plain {p : Parser} {b : UInt8} {rest : Bytes} (hb : isPlainEscape b = true)
    (hr : p.rest = byte '\\' :: b :: rest) : p.escape = .ok (p.advance 2) := by
  have hr' : (p.advance 1).rest = b :: rest := advance_rest (w := [byte '\\']) hr
  unfold escape
  simp only [peek_of_rest hr', hb, ↓reduceIte, advance_advance]

theorem escape_unit {p : Parser} {a b c d : UInt8} {point : ℕ} {rest : Bytes}
    (hv : JsonScanner.hex4 [a, b, c, d] = some point) (hhigh : isHigh point = false)
    (hlow : isLow point = false)
    (hr : p.rest = byte '\\' :: byte 'u' :: a :: b :: c :: d :: rest) :
    p.escape = .ok (p.advance 6) := by
  have h1 : (p.advance 1).rest = byte 'u' :: a :: b :: c :: d :: rest :=
    advance_rest (w := [byte '\\']) hr
  have h2 : ((p.advance 1).advance 1).rest = a :: b :: c :: d :: rest :=
    advance_rest (w := [byte 'u']) h1
  have hu : isPlainEscape (byte 'u') = false := by decide
  unfold escape
  simp only [peek_of_rest h1, hu, Bool.false_eq_true, ↓reduceIte]
  rw [hex4_eq hv h2]
  simp only [bind, Except.bind, hhigh, hlow, Bool.false_eq_true, ↓reduceIte, advance_advance]

theorem escape_pair {p : Parser} {a b c d e f g h : UInt8} {high low : ℕ} {rest : Bytes}
    (hv : JsonScanner.hex4 [a, b, c, d] = some high) (hv' : JsonScanner.hex4 [e, f, g, h] = some low)
    (hhigh : isHigh high = true) (hlow : isLow low = true)
    (hr : p.rest = byte '\\' :: byte 'u' :: a :: b :: c :: d ::
      byte '\\' :: byte 'u' :: e :: f :: g :: h :: rest) :
    p.escape = .ok (p.advance 12) := by
  have h1 : (p.advance 1).rest = _ := advance_rest (w := [byte '\\']) hr
  have h2 : (p.advance 2).rest = _ := advance_rest (w := [byte '\\', byte 'u']) hr
  have h6 : (p.advance 6).rest = _ :=
    advance_rest (w := [byte '\\', byte 'u', a, b, c, d]) hr
  have h8 : (p.advance 8).rest = _ :=
    advance_rest (w := [byte '\\', byte 'u', a, b, c, d, byte '\\', byte 'u']) hr
  have hu : isPlainEscape (byte 'u') = false := by decide
  have hmark : ¬ (p.advance 6).rest.take 2 ≠ [byte '\\', byte 'u'] := by
    rw [h6]
    simp
  unfold escape
  simp only [peek_of_rest h1, hu, Bool.false_eq_true, ↓reduceIte, advance_advance]
  rw [hex4_eq hv h2]
  simp only [bind, Except.bind, hhigh, ↓reduceIte, advance_advance, hmark]
  rw [hex4_eq hv' h8]
  simp only [hlow, ↓reduceIte, advance_advance]

theorem escape_eq {p : Parser} {w rest : Bytes} {c : Char} (he : Escape w c)
    (hr : p.rest = w ++ rest) : p.escape = .ok (p.advance w.length) := by
  cases he with
  | unit hv hhigh hlow => exact escape_unit hv hhigh hlow hr
  | pair hv hv' hhigh hlow => exact escape_pair hv hv' hhigh hlow hr
  | _ => exact escape_plain (by decide) hr

theorem scan_quote {p : Parser} {rest : Bytes} (hr : p.rest = byte '"' :: rest) :
    scan p = .ok p := by
  rw [scan, peek_of_rest hr]
  simp

theorem scan_plain {p : Parser} {b : UInt8} {rest : Bytes} (hq : b ≠ byte '"')
    (hs : b ≠ byte '\\') (hle : ¬ b ≤ 0x1f) (hr : p.rest = b :: rest) :
    scan p = scan (p.advance 1) := by
  conv_lhs => rw [scan]
  split
  · rename_i hk
    simp [peek_of_rest hr] at hk
  · rename_i x hk
    rw [peek_of_rest hr, Option.some.injEq] at hk
    subst hk
    simp only [hq, hs, hle, ↓reduceIte, ↓reduceDIte]

theorem scan_plains {p : Parser} {w rest : Bytes}
    (hw : ∀ b ∈ w, b ≠ byte '"' ∧ b ≠ byte '\\' ∧ ¬ b ≤ 0x1f) (hr : p.rest = w ++ rest) :
    scan p = scan (p.advance w.length) := by
  induction w generalizing p with
  | nil => rfl
  | cons b w ih =>
    obtain ⟨hq, hs, hle⟩ := hw b (by simp)
    have hr' : (p.advance 1).rest = w ++ rest := advance_rest (w := [b]) hr
    rw [scan_plain hq hs hle hr, ih (fun x hx => hw x (by simp [hx])) hr', advance_advance,
      List.length_cons, Nat.add_comm]

theorem scan_escape {p : Parser} {w rest : Bytes} {c : Char} (he : Escape w c)
    (hr : p.rest = w ++ rest) : scan p = scan (p.advance w.length) := by
  have hk : p.peek = some (byte '\\') := by
    obtain ⟨x, xs, rfl⟩ := List.exists_cons_of_ne_nil (escape_ne_nil he)
    have hh := escape_head he
    rw [List.head?_cons, Option.some.injEq] at hh
    rw [peek_of_rest hr, hh]
  have hq : byte '\\' ≠ byte '"' := by decide
  have hesc := escape_eq he hr
  conv_lhs => rw [scan]
  split
  · rename_i hn
    simp [hk] at hn
  · rename_i x hx
    rw [hk, Option.some.injEq] at hx
    subst hx
    simp only [hq, ↓reduceIte, ↓reduceDIte]
    split
    · rename_i hm
      simp [hesc] at hm
    · rename_i q hm
      rw [hesc, Except.ok.injEq] at hm
      rw [hm]

theorem piece_plains {c : Char} (hc : 0x20 ≤ c.toNat) (hq : c ≠ '"') (hs : c ≠ '\\') :
    ∀ b ∈ String.utf8EncodeChar c, b ≠ byte '"' ∧ b ≠ byte '\\' ∧ ¬ b ≤ 0x1f := by
  intro b hb
  have h1f : (0x1f : UInt8).toNat = 0x1f := rfl
  rw [UInt8.le_iff_toNat_le]
  by_cases ha : c.toNat < 0x80
  · rw [encodeChar_ascii ha, List.mem_singleton] at hb
    have hn : b.toNat = c.toNat := by
      rw [hb, UInt8.toNat_ofNat']
      omega
    refine ⟨?_, ?_, by omega⟩
    · rintro rfl
      exact hq (Char.toNat_inj.mp hn.symm)
    · rintro rfl
      exact hs (Char.toNat_inj.mp hn.symm)
  · have hx := encodeChar_not_ascii (by omega) b hb
    refine ⟨?_, ?_, by omega⟩ <;> rintro rfl <;> exact absurd hx (by decide)

theorem scan_spells {p : Parser} {w rest : Bytes} {cs : List Char} (hw : Spells w cs)
    (hr : p.rest = w ++ byte '"' :: rest) : scan p = .ok (p.advance w.length) := by
  induction hw generalizing p with
  | nil => exact scan_quote hr
  | @cons w ws c cs hpiece _ ih =>
    rw [List.append_assoc] at hr
    have hnext := ih (advance_rest hr)
    rw [advance_advance, ← List.length_append] at hnext
    rw [← hnext]
    cases hpiece with
    | plain _ hc hq hs => exact scan_plains (piece_plains hc hq hs) hr
    | escape he => exact scan_escape he hr

theorem ascii_encode {w : Bytes} (hw : ∀ b ∈ w, b.toNat < 0x80) : ∃ ds, w = encode ds := by
  induction w with
  | nil => exact ⟨[], rfl⟩
  | cons b w ih =>
    obtain ⟨ds, rfl⟩ := ih (fun x hx => hw x (by simp [hx]))
    have hb := hw b (by simp)
    have hn : (Char.ofNat b.toNat).toNat = b.toNat := by
      rw [Char.toNat_ofNat, if_pos (.inl (by omega))]
    refine ⟨Char.ofNat b.toNat :: ds, ?_⟩
    rw [encode_cons, encodeChar_ascii (by omega), hn]
    simp

theorem spells_encode {w : Bytes} {cs : List Char} (h : Spells w cs) : ∃ ds, w = encode ds := by
  induction h with
  | nil => exact ⟨[], rfl⟩
  | @cons w ws c cs hpiece _ ih =>
    obtain ⟨es, rfl⟩ := ih
    cases hpiece with
    | plain => exact ⟨c :: es, rfl⟩
    | escape he =>
      obtain ⟨ds, rfl⟩ := ascii_encode (escape_ascii he)
      exact ⟨ds ++ es, by rw [encode_append]⟩

theorem string_eq {p : Parser} {text : Text} {rest : Bytes} (ht : IsText text.written)
    (hr : p.rest = quoted text ++ rest) :
    string p = .ok (text, p.advance (quoted text).length) := by
  obtain ⟨cs, hcs⟩ := ht
  obtain ⟨ds, hds⟩ := spells_encode hcs
  have hr' : (p.advance 1).rest = text.written ++ (byte '"' :: rest) := by
    apply advance_rest (w := [byte '"'])
    simpa [quoted, List.append_assoc] using hr
  have hup := (took_advance (p.advance 1) hr').upTo
  have hlen : (quoted text).length = 1 + text.written.length + 1 := by
    simp only [quoted, List.cons_append, List.length_cons, List.length_append, List.length_nil]
    omega
  unfold string
  dsimp only
  rw [scan_spells hcs hr']
  simp only [bind, Except.bind, hup, (fromUtf8_eq_ok _ ds).mpr hds]
  rw [advance_advance, advance_advance, hlen, Nat.add_assoc]

theorem writes_head {d : Doc} {b : Bytes} (h : Writes d b) :
    ∃ x bs, b = x :: bs ∧ isSpace x = false ∧ x ≠ byte ']' := by
  have hdigit : ∀ {x : UInt8}, isDigit x = true → isSpace x = false ∧ x ≠ byte ']' := by
    intro x hx
    refine ⟨?_, ?_⟩
    · by_contra hs
      simp only [isSpace, Bool.or_eq_false_iff, decide_eq_false_iff_not, not_and_or, not_not] at hs
      rcases hs with ((rfl | rfl) | rfl) | rfl <;> exact absurd hx (by decide)
    · rintro rfl
      exact absurd hx (by decide)
  cases h with
  | null | true | false => exact ⟨_, _, rfl, by decide, by decide⟩
  | number hn =>
    obtain ⟨m, w, f, e, rfl, hm, hw, -, -⟩ := hn
    rcases hm with rfl | rfl
    · obtain ⟨d, hd, hdig⟩ := whole_head hw (f ++ e)
      obtain ⟨bs, hbs⟩ := List.head?_eq_some_iff.mp hd
      exact ⟨d, bs, by simpa [List.append_assoc] using hbs, hdigit hdig⟩
    · exact ⟨byte '-', w ++ f ++ e, rfl, by decide, by decide⟩
  | _ => exact ⟨_, _, rfl, by decide, by decide⟩

theorem head_space {b : UInt8} {rest : Bytes} (h : isSpace b = false) :
    ∀ x ∈ (b :: rest).head?, isSpace x = false := by
  intro x hx
  simp only [List.head?_cons, Option.mem_def, Option.some.injEq] at hx
  exact hx ▸ h

theorem spaces_comma {p : Parser} {w v rest : Bytes} (next : Next) (hv : Spaces v)
    (hr : p.rest = w ++ byte ',' :: (v ++ rest)) (hs : ∀ b ∈ rest.head?, isSpace b = false) :
    Parser.spaces { (p.advance w.length).advance 1 with next := next } =
      { p.advance (w ++ byte ',' :: v).length with next := next } := by
  have hrest' : ((p.advance w.length).advance 1).rest = v ++ rest :=
    advance_rest (w := [byte ',']) (advance_rest hr)
  have hlen : (w ++ byte ',' :: v).length = w.length + 1 + v.length := by
    simp only [List.length_append, List.length_cons]
    omega
  have hsp := spaces_eq (p := { (p.advance w.length).advance 1 with next := next }) hv hrest' hs
  rw [hsp, hlen, ← advance_advance, ← advance_advance]
  rfl

theorem step_value {p : Parser} {lead bs : Bytes} {b : UInt8} (hl : ValueLead p lead)
    (hr : p.rest = lead ++ b :: bs) (hb : isSpace b = false) (hne : b ≠ byte ']') :
    ∃ closes r, step p = some (value r) ∧ r.rest = b :: bs ∧
      TookTo p lead (.value closes) p.objects r := by
  have hrest : (p.advance lead.length).rest = b :: bs := advance_rest hr
  cases hl with
  | @here closes w hn hw =>
    have hsp := spaces_eq hw hr (head_space hb)
    refine ⟨closes, p.advance lead.length, ?_, hrest, ⟨by rw [hr, hrest], rfl, hn, rfl⟩⟩
    have hnext : (p.advance lead.length).next = .value closes := hn
    have hk : ¬ (closes = true ∧ (p.advance lead.length).peek = some (byte ']')) := by
      rw [peek_of_rest hrest, Option.some.injEq]
      exact fun h => hne h.2
    unfold step
    simp only [hsp, hnext, valueStep, hk, ↓reduceIte]
  | @comma objects w v hn ho hw hv =>
    have hr' : p.rest = w ++ byte ',' :: (v ++ b :: bs) := by
      simpa [List.append_assoc] using hr
    have hsp := spaces_eq hw hr' (head_space (by decide))
    refine ⟨false, { p.advance (w ++ byte ',' :: v).length with next := .value false }, ?_,
      hrest, ⟨hr.trans (congrArg _ hrest.symm), rfl, rfl, rfl⟩⟩
    have hnext : (p.advance w.length).next = .after := hn
    have hobjects : (p.advance w.length).objects = false :: objects := ho
    unfold step
    simp only [hsp, hnext, hobjects, insideStep, peek_of_rest (advance_rest hr'), ↓reduceIte,
      Bool.false_eq_true, spaces_comma _ hv hr' (head_space hb), valueStep, false_and]

theorem step_keyStep {p : Parser} {lead bs : Bytes} {b : UInt8} (hl : KeyLead p lead)
    (hr : p.rest = lead ++ b :: bs) (hb : isSpace b = false) :
    ∃ closes r, step p = some (keyStep r closes) ∧ r.rest = b :: bs ∧
      TookTo p lead (.key closes) p.objects r := by
  have hrest : (p.advance lead.length).rest = b :: bs := advance_rest hr
  cases hl with
  | @here closes w hn hw =>
    have hsp := spaces_eq hw hr (head_space hb)
    refine ⟨closes, p.advance lead.length, ?_, hrest, ⟨by rw [hr, hrest], rfl, hn, rfl⟩⟩
    have hnext : (p.advance lead.length).next = .key closes := hn
    unfold step
    simp only [hsp, hnext]
  | @comma objects w v hn ho hw hv =>
    have hr' : p.rest = w ++ byte ',' :: (v ++ b :: bs) := by
      simpa [List.append_assoc] using hr
    have hsp := spaces_eq hw hr' (head_space (by decide))
    refine ⟨false, { p.advance (w ++ byte ',' :: v).length with next := .key false }, ?_,
      hrest, ⟨hr.trans (congrArg _ hrest.symm), rfl, rfl, rfl⟩⟩
    have hnext : (p.advance w.length).next = .after := hn
    have hobjects : (p.advance w.length).objects = true :: objects := ho
    unfold step
    simp only [hsp, hnext, hobjects, insideStep, peek_of_rest (advance_rest hr'), ↓reduceIte,
      spaces_comma _ hv hr' (head_space hb)]

theorem keyStep_key {r : Parser} {closes : Bool} {u rest : Bytes} {key : Text}
    (hk : IsText key.written) (hu : Spaces u)
    (hr : r.rest = quoted key ++ (u ++ byte ':' :: rest)) :
    keyStep r closes = .ok (.key key, { ((r.advance (quoted key).length).advance u.length).advance 1
      with next := .value false }) := by
  have hpeek : r.peek = some (byte '"') := peek_of_rest hr
  have hr' := advance_rest hr
  have hcolon : ((r.advance (quoted key).length).advance u.length).peek = some (byte ':') :=
    peek_of_rest (advance_rest hr')
  have hne : ¬ (byte '"' = byte '}' ∧ closes = true) := by
    rintro ⟨h, -⟩
    exact absurd h (by decide)
  unfold keyStep
  simp only [hpeek, Option.some.injEq, hne, ↓reduceIte, string_eq hk hr]
  simp only [bind, Except.bind, spaces_eq hu hr' (head_space (by decide)), hcolon, ne_eq,
    not_true_eq_false, ↓reduceIte, pure, Except.pure]

theorem step_key {p : Parser} {lead u rest : Bytes} {key : Text} (hl : KeyLead p lead)
    (hk : IsText key.written) (hu : Spaces u)
    (hr : p.rest = lead ++ (quoted key ++ (u ++ byte ':' :: rest))) :
    ∃ q, step p = some (.ok (.key key, q)) ∧ q.rest = rest ∧
      TookTo p (lead ++ quoted key ++ u ++ [byte ':']) (.value false) p.objects q := by
  obtain ⟨closes, r, hs, hrest, hto⟩ := step_keyStep hl hr (by decide)
  have h0 : r.rest = quoted key ++ (u ++ byte ':' :: rest) := hrest
  rw [keyStep_key hk hu h0] at hs
  have h1 := advance_rest h0
  have h2 := advance_rest h1
  have h3 : ((((r.advance (quoted key).length).advance u.length)).advance 1).rest = rest :=
    advance_rest (w := [byte ':']) h2
  refine ⟨_, hs, h3, ⟨?_, ?_, rfl, hto.objects⟩⟩
  · rw [h3, hr]
    simp [List.append_assoc]
  · simp only [advance, hto.offset, List.length_append, List.length_singleton]
    omega

theorem close_tookTo {p r : Parser} {w rest : Bytes} {b : UInt8} (ht : Took p w r)
    (hr : r.rest = b :: rest) :
    r.close.rest = rest ∧ TookTo p (w ++ [b]) .after p.objects.tail r.close := by
  have hb := tookTo_close (peek_of_rest hr)
  have hrest := hb.rest
  rw [hr, List.singleton_append] at hrest
  have hto := (tookTo_of_took ht).trans hb
  rw [ht.objects] at hto
  exact ⟨(List.cons.inj hrest).2.symm, hto⟩

theorem took_spaces_eq {p : Parser} {w rest : Bytes} (hw : Spaces w) (hr : p.rest = w ++ rest)
    (hs : ∀ b ∈ rest.head?, isSpace b = false) : Took p w p.spaces ∧ p.spaces.rest = rest := by
  rw [spaces_eq hw hr hs]
  exact ⟨took_advance p hr, advance_rest hr⟩

theorem step_endArray {p : Parser} {w rest : Bytes}
    (hc : p.next = .value true ∨ p.next = .after ∧ p.objects.head? = some false) (hw : Spaces w)
    (hr : p.rest = w ++ byte ']' :: rest) :
    ∃ q, step p = some (.ok (.endArray, q)) ∧ q.rest = rest ∧
      TookTo p (w ++ [byte ']']) .after p.objects.tail q := by
  obtain ⟨ht, hrest⟩ := took_spaces_eq hw hr (head_space (by decide))
  refine ⟨p.spaces.close, ?_, close_tookTo ht hrest⟩
  have hk := peek_of_rest hrest
  unfold step
  rcases hc with hn | ⟨hn, ho⟩
  · simp only [ht.next, hn, valueStep, hk, and_self, ↓reduceIte]
  · obtain ⟨objects, hobjects⟩ := List.head?_eq_some_iff.mp ho
    have hcomma : ¬ (byte ']' = byte ',') := by decide
    simp only [ht.next, hn, ht.objects, hobjects, insideStep, hk, Option.some.injEq, hcomma,
      and_self, ↓reduceIte]

theorem step_endObject {p : Parser} {w rest : Bytes}
    (hc : p.next = .key true ∨ p.next = .after ∧ p.objects.head? = some true) (hw : Spaces w)
    (hr : p.rest = w ++ byte '}' :: rest) :
    ∃ q, step p = some (.ok (.endObject, q)) ∧ q.rest = rest ∧
      TookTo p (w ++ [byte '}']) .after p.objects.tail q := by
  obtain ⟨ht, hrest⟩ := took_spaces_eq hw hr (head_space (by decide))
  refine ⟨p.spaces.close, ?_, close_tookTo ht hrest⟩
  have hk := peek_of_rest hrest
  unfold step
  rcases hc with hn | ⟨hn, ho⟩
  · simp only [ht.next, hn, keyStep, hk, and_self, ↓reduceIte]
  · obtain ⟨objects, hobjects⟩ := List.head?_eq_some_iff.mp ho
    have hcomma : ¬ (byte '}' = byte ',') := by decide
    have hbracket : ¬ (byte '}' = byte ']' ∧ true = false) := by simp
    simp only [ht.next, hn, ht.objects, hobjects, insideStep, hk, Option.some.injEq, hcomma,
      hbracket, and_self, ↓reduceIte]

/-- Reading from `p` hands over `es` and goes on from `q`. -/
def Reads (p : Parser) (es : List Event) (q : Parser) : Prop :=
  readFrom p = (es ++ (readFrom q).1, (readFrom q).2)

theorem Reads.trans {p q r : Parser} {es fs : List Event} (h : Reads p es q) (k : Reads q fs r) :
    Reads p (es ++ fs) r := by
  unfold Reads at h k ⊢
  rw [h, k, List.append_assoc]

theorem reads_step {p q : Parser} {e : Event} (h : step p = some (.ok (e, q))) :
    Reads p [e] q := by
  unfold Reads
  conv_lhs => rw [readFrom]
  split
  · rename_i h'
    exact absurd (h.symm.trans h') (by simp)
  · rename_i _ h'
    exact absurd (h.symm.trans h') (by simp)
  · rename_i e' q' h'
    rw [h, Option.some.injEq, Except.ok.injEq, Prod.mk.injEq] at h'
    obtain ⟨rfl, rfl⟩ := h'
    rfl

theorem number_head {n : Bytes} (h : IsNumber n) :
    ∃ b bs, n = b :: bs ∧ (b = byte '-' ∨ isDigit b = true) := by
  obtain ⟨m, w, f, e, rfl, hm, hw, -, -⟩ := h
  rcases hm with rfl | rfl
  · obtain ⟨d, hd, hdigit⟩ := whole_head hw (f ++ e)
    obtain ⟨bs, hbs⟩ := List.head?_eq_some_iff.mp hd
    exact ⟨d, bs, by simpa [List.append_assoc] using hbs, .inr hdigit⟩
  · exact ⟨byte '-', w ++ f ++ e, rfl, .inl rfl⟩

theorem value_number {r : Parser} {n rest : Bytes} (hn : IsNumber n) (hr : r.rest = n ++ rest)
    (he : Ends rest) : value r = .ok (.number n, (r.advance n.length).afterAValue) := by
  obtain ⟨b, bs, rfl, hb⟩ := number_head hn
  have hother : b ≠ byte 'n' ∧ b ≠ byte 't' ∧ b ≠ byte 'f' ∧ b ≠ byte '"' ∧ b ≠ byte '[' ∧
      b ≠ byte '{' := by
    refine ⟨?_, ?_, ?_, ?_, ?_, ?_⟩ <;> rintro rfl <;> exact absurd hb (by decide)
  obtain ⟨hnull, htrue, hfalse, hquote, harray, hobject⟩ := hother
  unfold value
  simp only [peek_of_rest hr, hnull, htrue, hfalse, hquote, harray, hobject, hb, ↓reduceIte,
    number_eq hn hr he]
  simp only [bind, Except.bind, pure, Except.pure, (took_advance r hr).upTo]

theorem value_string {r : Parser} {text : Text} {rest : Bytes} (ht : IsText text.written)
    (hr : r.rest = quoted text ++ rest) :
    value r = .ok (.string text, (r.advance (quoted text).length).afterAValue) := by
  have hpeek : r.peek = some (byte '"') := peek_of_rest hr
  have hother : byte '"' ≠ byte 'n' ∧ byte '"' ≠ byte 't' ∧ byte '"' ≠ byte 'f' := by decide
  unfold value
  simp only [hpeek, hother, ↓reduceIte, string_eq ht hr]
  simp only [bind, Except.bind, pure, Except.pure]

theorem value_beginArray {r : Parser} {rest : Bytes} (hr : r.rest = byte '[' :: rest)
    (hd : r.objects.length ≠ deepest) :
    value r = .ok (.beginArray,
      { r.advance 1 with objects := false :: r.objects, next := .value true }) := by
  have hother : byte '[' ≠ byte 'n' ∧ byte '[' ≠ byte 't' ∧ byte '[' ≠ byte 'f' ∧
      byte '[' ≠ byte '"' := by decide
  have hopen : r.open false =
      .ok { r.advance 1 with objects := false :: r.objects, next := .value true } := by
    unfold Parser.open
    simp only [Parser.depth, hd, ↓reduceIte, Bool.false_eq_true, advance]
  unfold value
  simp only [peek_of_rest hr, hother, ↓reduceIte, hopen]
  simp only [bind, Except.bind, pure, Except.pure]

theorem value_beginObject {r : Parser} {rest : Bytes} (hr : r.rest = byte '{' :: rest)
    (hd : r.objects.length ≠ deepest) :
    value r = .ok (.beginObject,
      { r.advance 1 with objects := true :: r.objects, next := .key true }) := by
  have hother : byte '{' ≠ byte 'n' ∧ byte '{' ≠ byte 't' ∧ byte '{' ≠ byte 'f' ∧
      byte '{' ≠ byte '"' ∧ byte '{' ≠ byte '[' := by decide
  have hopen : r.open true =
      .ok { r.advance 1 with objects := true :: r.objects, next := .key true } := by
    unfold Parser.open
    simp only [Parser.depth, hd, ↓reduceIte, advance]
  unfold value
  simp only [peek_of_rest hr, hother, ↓reduceIte, hopen]
  simp only [bind, Except.bind, pure, Except.pure]

/-- The events of `d` are read, with the bytes `taken` that write it and what leads to it. -/
def Told (p : Parser) (taken rest : Bytes) (es : List Event) : Prop :=
  ∃ q, Reads p es q ∧ q.rest = rest ∧ TookTo p taken .after p.objects q

theorem told_scalar {p : Parser} {lead b rest : Bytes} {d : Doc} {e : Event} {x : UInt8}
    {bs : Bytes} (hl : ValueLead p lead) (hb : b = x :: bs) (hx : isSpace x = false)
    (hne : x ≠ byte ']') (hr : p.rest = lead ++ (b ++ rest)) (hd : d.events = [e])
    (hv : ∀ r : Parser, r.rest = b ++ rest →
      value r = .ok (e, (r.advance b.length).afterAValue)) :
    Told p (lead ++ b) rest d.events := by
  subst hb
  obtain ⟨closes, r, hs, hrest, hto⟩ := step_value hl hr hx hne
  rw [hv r hrest] at hs
  have htook : Took r (x :: bs) (r.advance (x :: bs).length) := took_advance r hrest
  have hafter := hto.took htook
  rw [hd]
  exact ⟨_, reads_step hs, advance_rest hrest, hafter⟩

theorem told_word {p : Parser} {lead rest : Bytes} {d : Doc} {e : Event} {w : String}
    {x : UInt8} {bs : Bytes} (hl : ValueLead p lead) (hb : word w = x :: bs)
    (hx : isSpace x = false) (hne : x ≠ byte ']') (hr : p.rest = lead ++ (word w ++ rest))
    (hd : d.events = [e])
    (hv : ∀ r : Parser, r.peek = some x → value r = r.keyword (word w) e) :
    Told p (lead ++ word w) rest d.events := by
  refine told_scalar hl hb hx hne hr hd (fun r hrest => ?_)
  rw [hv r (peek_of_rest (hrest.trans (by rw [hb]; rfl)))]
  exact keyword_eq hrest

theorem told_array {p : Parser} {lead inner rest : Bytes} {items : List Doc}
    (hl : ValueLead p lead) (hr : p.rest = lead ++ (byte '[' :: (inner ++ byte ']' :: rest)))
    (hd : p.objects.length ≠ deepest)
    (hin : ∀ q : Parser, q.next = .value true → q.objects = false :: p.objects →
      q.rest = inner ++ byte ']' :: rest → ∃ r bs w, Reads q (itemEvents items) r ∧
        inner = bs ++ w ∧ Spaces w ∧ r.rest = w ++ byte ']' :: rest ∧
        (r.next = .value true ∨ r.next = .after ∧ r.objects.head? = some false) ∧
        TookTo q bs r.next q.objects r) :
    Told p (lead ++ (byte '[' :: inner ++ [byte ']'])) rest (Doc.array items).events := by
  obtain ⟨closes, r, hs, hrest, hto⟩ := step_value hl hr (by decide) (by decide)
  rw [value_beginArray hrest (by rwa [hto.objects])] at hs
  have hopen : TookTo p (lead ++ [byte '[']) (.value true) (false :: p.objects)
      { r.advance 1 with objects := false :: r.objects, next := .value true } :=
    hto.trans ⟨(took_peek (peek_of_rest hrest)).rest, rfl, rfl, by rw [hto.objects]⟩
  obtain ⟨q, bs, w, hq, rfl, hw, hqrest, hc, hqto⟩ :=
    hin _ hopen.next hopen.objects (advance_rest (w := [byte '[']) hrest)
  obtain ⟨t, ht, htrest, htto⟩ := step_endArray hc hw hqrest
  have hall := (hopen.trans hqto).trans htto
  refine ⟨t, ?_, htrest, ⟨?_, ?_, hall.next, ?_⟩⟩
  · exact ((reads_step hs).trans hq).trans (reads_step ht)
  · simpa [List.append_assoc] using hall.rest
  · simpa [List.append_assoc] using hall.offset
  · rw [hall.objects, hqto.objects, hopen.objects, List.tail_cons]

theorem told_object {p : Parser} {lead inner rest : Bytes} {members : List (Text × Doc)}
    (hl : ValueLead p lead) (hr : p.rest = lead ++ (byte '{' :: (inner ++ byte '}' :: rest)))
    (hd : p.objects.length ≠ deepest)
    (hin : ∀ q : Parser, q.next = .key true → q.objects = true :: p.objects →
      q.rest = inner ++ byte '}' :: rest → ∃ r bs w, Reads q (memberEvents members) r ∧
        inner = bs ++ w ∧ Spaces w ∧ r.rest = w ++ byte '}' :: rest ∧
        (r.next = .key true ∨ r.next = .after ∧ r.objects.head? = some true) ∧
        TookTo q bs r.next q.objects r) :
    Told p (lead ++ (byte '{' :: inner ++ [byte '}'])) rest (Doc.object members).events := by
  obtain ⟨closes, r, hs, hrest, hto⟩ := step_value hl hr (by decide) (by decide)
  rw [value_beginObject hrest (by rwa [hto.objects])] at hs
  have hopen : TookTo p (lead ++ [byte '{']) (.key true) (true :: p.objects)
      { r.advance 1 with objects := true :: r.objects, next := .key true } :=
    hto.trans ⟨(took_peek (peek_of_rest hrest)).rest, rfl, rfl, by rw [hto.objects]⟩
  obtain ⟨q, bs, w, hq, rfl, hw, hqrest, hc, hqto⟩ :=
    hin _ hopen.next hopen.objects (advance_rest (w := [byte '{']) hrest)
  obtain ⟨t, ht, htrest, htto⟩ := step_endObject hc hw hqrest
  have hall := (hopen.trans hqto).trans htto
  refine ⟨t, ?_, htrest, ⟨?_, ?_, hall.next, ?_⟩⟩
  · exact ((reads_step hs).trans hq).trans (reads_step ht)
  · simpa [List.append_assoc] using hall.rest
  · simpa [List.append_assoc] using hall.offset
  · rw [hall.objects, hqto.objects, hopen.objects, List.tail_cons]

theorem reads_nil (p : Parser) : Reads p [] p := rfl

theorem tookTo_refl (p : Parser) : TookTo p [] p.next p.objects p := ⟨rfl, rfl, rfl, rfl⟩

/-- Wherever a value begins, `d` written as `b` is read whole. -/
def ValueTold (d : Doc) (b : Bytes) : Prop :=
  ∀ {p : Parser} {lead : Bytes} (rest : Bytes), ValueLead p lead →
    p.rest = lead ++ (b ++ rest) → Ends rest → d.depth + p.objects.length ≤ deepest →
    Told p (lead ++ b) rest d.events

/-- Past an array's bracket, its elements written as `bs` are read. -/
def ElementsTold (ds : List Doc) (bs : Bytes) : Prop :=
  ∀ {p : Parser} (rest objects : List _), p.next = .value true → p.objects = false :: objects →
    p.rest = bs ++ rest → Ends rest → itemsDepth ds + p.objects.length ≤ deepest →
    Told p bs rest (itemEvents ds)

/-- Past an object's brace, its members written as `bs` are read. -/
def MembersTold (ms : List (Text × Doc)) (bs : Bytes) : Prop :=
  ∀ {p : Parser} (rest objects : List _), p.next = .key true → p.objects = true :: objects →
    p.rest = bs ++ rest → Ends rest → membersDepth ms + p.objects.length ≤ deepest →
    Told p bs rest (memberEvents ms)

theorem null_told : ValueTold .null (word "null") := by
  intro p lead rest hl hr he hdeep
  refine told_word hl (x := byte 'n') rfl (by decide) (by decide) hr rfl (fun r hk => ?_)
  unfold value
  simp only [hk, ↓reduceIte]

theorem true_told : ValueTold (.bool true) (word "true") := by
  intro p lead rest hl hr he hdeep
  refine told_word hl (x := byte 't') rfl (by decide) (by decide) hr rfl (fun r hk => ?_)
  have hother : ¬ byte 't' = byte 'n' := by decide
  unfold value
  simp only [hk, hother, ↓reduceIte]

theorem false_told : ValueTold (.bool false) (word "false") := by
  intro p lead rest hl hr he hdeep
  refine told_word hl (x := byte 'f') rfl (by decide) (by decide) hr rfl (fun r hk => ?_)
  have hother : ¬ byte 'f' = byte 'n' ∧ ¬ byte 'f' = byte 't' := by decide
  unfold value
  simp only [hk, hother, ↓reduceIte]

theorem number_told {n : Bytes} (hn : IsNumber n) : ValueTold (.number n) n := by
  intro p lead rest hl hr he hdeep
  obtain ⟨x, bs, hb, hx, hne⟩ := writes_head (.number hn)
  exact told_scalar hl hb hx hne hr rfl (fun r hrest => value_number hn hrest he)

theorem string_told {text : Text} (ht : IsText text.written) :
    ValueTold (.string text) (quoted text) := by
  intro p lead rest hl hr he hdeep
  exact told_scalar hl rfl (by decide) (by decide) hr rfl
    (fun r hrest => value_string ht hrest)

theorem emptyArray_told {w : Bytes} (hw : Spaces w) :
    ValueTold (.array []) (byte '[' :: w ++ [byte ']']) := by
  intro p lead rest hl hr he hdeep
  simp only [Doc.depth, itemsDepth] at hdeep
  refine told_array hl (by simpa [List.append_assoc] using hr) (by omega) ?_
  intro q hn ho hq
  exact ⟨q, [], w, reads_nil q, rfl, hw, hq, .inl hn, tookTo_refl q⟩

theorem array_told {items : List Doc} {bs w : Bytes} (hw : Spaces w)
    (hitems : ElementsTold items bs) :
    ValueTold (.array items) (byte '[' :: bs ++ w ++ [byte ']']) := by
  intro p lead rest hl hr he hdeep
  simp only [Doc.depth] at hdeep
  have hinner : byte '[' :: bs ++ w ++ [byte ']'] = byte '[' :: (bs ++ w) ++ [byte ']'] := by
    simp [List.append_assoc]
  rw [hinner] at hr ⊢
  refine told_array hl (by simpa [List.append_assoc] using hr) (by omega) ?_
  intro q hn ho hq
  have hqlen : q.objects.length = p.objects.length + 1 := by rw [ho, List.length_cons]
  obtain ⟨r, hreads, hrest, hto⟩ := hitems (w ++ byte ']' :: rest) _ hn ho
    (by simpa [List.append_assoc] using hq)
    (ends_spaces hw (ends_cons (.inr (.inr (.inl rfl))))) (by omega)
  refine ⟨r, bs, w, hreads, rfl, hw, hrest, .inr ⟨hto.next, ?_⟩, hto.next ▸ hto⟩
  rw [hto.objects, ho, List.head?_cons]

theorem emptyObject_told {w : Bytes} (hw : Spaces w) :
    ValueTold (.object []) (byte '{' :: w ++ [byte '}']) := by
  intro p lead rest hl hr he hdeep
  simp only [Doc.depth, membersDepth] at hdeep
  refine told_object hl (by simpa [List.append_assoc] using hr) (by omega) ?_
  intro q hn ho hq
  exact ⟨q, [], w, reads_nil q, rfl, hw, hq, .inl hn, tookTo_refl q⟩

theorem object_told {members : List (Text × Doc)} {bs w : Bytes} (hw : Spaces w)
    (hmembers : MembersTold members bs) :
    ValueTold (.object members) (byte '{' :: bs ++ w ++ [byte '}']) := by
  intro p lead rest hl hr he hdeep
  simp only [Doc.depth] at hdeep
  have hinner : byte '{' :: bs ++ w ++ [byte '}'] = byte '{' :: (bs ++ w) ++ [byte '}'] := by
    simp [List.append_assoc]
  rw [hinner] at hr ⊢
  refine told_object hl (by simpa [List.append_assoc] using hr) (by omega) ?_
  intro q hn ho hq
  have hqlen : q.objects.length = p.objects.length + 1 := by rw [ho, List.length_cons]
  obtain ⟨r, hreads, hrest, hto⟩ := hmembers (w ++ byte '}' :: rest) _ hn ho
    (by simpa [List.append_assoc] using hq)
    (ends_spaces hw (ends_cons (.inr (.inr (.inr rfl))))) (by omega)
  refine ⟨r, bs, w, hreads, rfl, hw, hrest, .inr ⟨hto.next, ?_⟩, hto.next ▸ hto⟩
  rw [hto.objects, ho, List.head?_cons]

theorem oneElement_told {d : Doc} {w b : Bytes} (hw : Spaces w) (hd : ValueTold d b) :
    ElementsTold [d] (w ++ b) := by
  intro p rest objects hn ho hr he hdeep
  simp only [itemsDepth, Nat.max_zero] at hdeep
  have := hd rest (.here hn hw) (by simpa [List.append_assoc] using hr) he hdeep
  simpa [itemEvents] using this

theorem moreElements_told {ds : List Doc} {d : Doc} {bs w v b : Bytes} (hw : Spaces w)
    (hv : Spaces v) (hitems : ElementsTold ds bs) (hd : ValueTold d b) :
    ElementsTold (ds ++ [d]) (bs ++ w ++ byte ',' :: v ++ b) := by
  intro p rest objects hn ho hr he hdeep
  simp only [itemsDepth_append, itemsDepth, Nat.max_zero] at hdeep
  obtain ⟨q, hq, hqrest, hqto⟩ := hitems (w ++ byte ',' :: (v ++ (b ++ rest))) _ hn ho
    (by simpa [List.append_assoc] using hr) (ends_spaces hw (ends_cons (.inr (.inl rfl))))
    (by omega)
  obtain ⟨r, hreads, hrest, hto⟩ := hd rest
    (.comma hqto.next (hqto.objects.trans ho) hw hv)
    (by simpa [List.append_assoc] using hqrest) he (by rw [hqto.objects]; omega)
  refine ⟨r, ?_, hrest, ?_⟩
  · have := hq.trans hreads
    simpa [itemEvents] using this
  · have := hqto.trans hto
    rw [hqto.objects] at this
    simpa [List.append_assoc] using this

theorem oneMember_told {key : Text} {d : Doc} {w u v b : Bytes} (hw : Spaces w)
    (hkey : IsText key.written) (hu : Spaces u) (hv : Spaces v) (hd : ValueTold d b) :
    MembersTold [(key, d)] (w ++ quoted key ++ u ++ byte ':' :: v ++ b) := by
  intro p rest objects hn ho hr he hdeep
  simp only [membersDepth, Nat.max_zero] at hdeep
  have hr' : p.rest = w ++ (quoted key ++ (u ++ byte ':' :: (v ++ (b ++ rest)))) := by
    simpa [List.append_assoc] using hr
  obtain ⟨q, hq, hqrest, hqto⟩ := step_key (.here hn hw) hkey hu hr'
  obtain ⟨r, hreads, hrest, hto⟩ := hd rest (.here hqto.next hv) hqrest he
    (by rw [hqto.objects]; omega)
  refine ⟨r, ?_, hrest, ?_⟩
  · have := (reads_step hq).trans hreads
    simpa [memberEvents] using this
  · have := hqto.trans hto
    rw [hqto.objects] at this
    simpa [List.append_assoc] using this

theorem moreMembers_told {ms : List (Text × Doc)} {key : Text} {d : Doc} {bs x w u v b : Bytes}
    (hx : Spaces x) (hw : Spaces w) (hkey : IsText key.written) (hu : Spaces u) (hv : Spaces v)
    (hmembers : MembersTold ms bs) (hd : ValueTold d b) :
    MembersTold (ms ++ [(key, d)])
      (bs ++ x ++ byte ',' :: w ++ quoted key ++ u ++ byte ':' :: v ++ b) := by
  intro p rest objects hn ho hr he hdeep
  simp only [membersDepth_append, membersDepth, Nat.max_zero] at hdeep
  obtain ⟨s, hs, hsrest, hsto⟩ := hmembers
    (x ++ byte ',' :: (w ++ (quoted key ++ (u ++ byte ':' :: (v ++ (b ++ rest)))))) _ hn ho
    (by simpa [List.append_assoc] using hr) (ends_spaces hx (ends_cons (.inr (.inl rfl))))
    (by omega)
  have hsrest' : s.rest = (x ++ byte ',' :: w) ++
      (quoted key ++ (u ++ byte ':' :: (v ++ (b ++ rest)))) := by
    simpa [List.append_assoc] using hsrest
  obtain ⟨q, hq, hqrest, hqto⟩ := step_key
    (.comma hsto.next (hsto.objects.trans ho) hx hw) hkey hu hsrest'
  obtain ⟨r, hreads, hrest, hto⟩ := hd rest (.here hqto.next hv) hqrest he
    (by rw [hqto.objects, hsto.objects]; omega)
  refine ⟨r, ?_, hrest, ?_⟩
  · have := (hs.trans (reads_step hq)).trans hreads
    simpa [memberEvents] using this
  · have := (hsto.trans hqto).trans hto
    rw [hqto.objects, hsto.objects] at this
    simpa [List.append_assoc] using this

theorem writes_told {d : Doc} {b : Bytes} (h : Writes d b) : ValueTold d b :=
  @Writes.rec (fun d b _ => ValueTold d b) (fun ds bs _ => ElementsTold ds bs)
    (fun ms bs _ => MembersTold ms bs) null_told true_told false_told number_told string_told
    emptyArray_told (fun _ hw hitems => array_told hw hitems) emptyObject_told
    (fun _ hw hmembers => object_told hw hmembers) (fun hw _ hd => oneElement_told hw hd)
    (fun _ hw hv _ hitems hd => moreElements_told hw hv hitems hd)
    (fun hw hkey hu hv _ hd => oneMember_told hw hkey hu hv hd)
    (fun _ hx hw hkey hu hv _ hmembers hd =>
      moreMembers_told hx hw hkey hu hv hmembers hd) d b h

theorem readFrom_end {p : Parser} (hn : p.next = .after) (ho : p.objects = [])
    (hs : Spaces p.rest) : readFrom p = ([], .ok ()) := by
  have hall : p.rest = p.rest ++ [] := (List.append_nil _).symm
  obtain ⟨ht, hrest⟩ := took_spaces_eq hs hall (by simp)
  have hstep : step p = none := by
    unfold step
    simp only [ht.next, hn, ht.objects, ho, hrest, ↓reduceIte]
  rw [readFrom]
  split
  · rfl
  · rename_i _ h
    exact absurd (hstep.symm.trans h) (by simp)
  · rename_i _ _ h
    exact absurd (hstep.symm.trans h) (by simp)

/-- A document deep enough for the parser is read to its end, as its events. -/
theorem read_document {d : Doc} {bytes : Bytes} (h : Document d bytes)
    (hdeep : d.depth ≤ deepest) : read bytes = (d.events, .ok ()) := by
  obtain ⟨w, b, v, rfl, hw, hd, hv⟩ := h
  have hr : (Parser.new (w ++ b ++ v)).rest = w ++ (b ++ v) := List.append_assoc _ _ _
  have hends : Ends v := by
    have := ends_spaces hv (show Ends [] by simp [Ends])
    rwa [List.append_nil] at this
  obtain ⟨q, hreads, hrest, hto⟩ := writes_told hd v (.here rfl hw) hr hends hdeep
  have hend := readFrom_end hto.next hto.objects (hrest ▸ hv)
  unfold Reads at hreads
  unfold JsonSyntax.read
  rw [hreads, hend, List.append_nil]

/-- `read` accepts the documents of the grammar that are shallow enough and nothing else, hands over
their events, and hands over the beginning of some document's events where it refuses. -/
theorem read_accepts_documents (bytes : Bytes) :
    ((read bytes).2 = .ok () ↔ ∃ d, Document d bytes ∧ d.depth ≤ deepest) ∧
      (∀ d, Document d bytes → d.depth ≤ deepest → (read bytes).1 = d.events) ∧
      ∃ d : Doc, (read bytes).1 <+: d.events := by
  obtain ⟨hbegins, hwhole⟩ := standing_readFrom (standing_new bytes)
  refine ⟨⟨?_, ?_⟩, ?_, hbegins⟩
  · intro hok
    obtain ⟨d, hd, hdeep, -⟩ := hwhole hok
    exact ⟨d, hd, hdeep⟩
  · rintro ⟨d, hd, hdeep⟩
    rw [read_document hd hdeep]
  · intro d hd hdeep
    rw [read_document hd hdeep]

end SoutherNative.JsonAccepting
