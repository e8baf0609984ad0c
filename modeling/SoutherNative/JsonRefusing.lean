import SoutherNative.JsonAccepting

set_option autoImplicit false

/-!
# Where a refusal may stop

Every piece of the parser works out the offset it refuses at by itself. Each is within the bytes.
-/
namespace SoutherNative.JsonRefusing
open Utf8 JsonScanner JsonScanner.Parser JsonGrammar JsonSyntax

def finish (p : Parser) : ℕ := p.offset + p.rest.length

theorem took_finish {p q : Parser} {w : Bytes} (h : Took p w q) : finish q = finish p := by
  rw [JsonRefusing.finish, JsonRefusing.finish, h.rest, h.offset, List.length_append, Nat.add_assoc]

theorem tookTo_finish {p q : Parser} {w : Bytes} {next : Next} {objects : List Bool}
    (h : TookTo p w next objects q) : finish q = finish p := by
  rw [JsonRefusing.finish, JsonRefusing.finish, h.rest, h.offset, List.length_append, Nat.add_assoc]

theorem bind_eq_error {ε α β : Type} {x : Except ε α} {f : α → Except ε β} {e : ε} :
    x >>= f = .error e ↔ x = .error e ∨ ∃ a, x = .ok a ∧ f a = .error e := by
  cases x <;> simp [bind, Except.bind]

theorem offset_le (p : Parser) : p.offset ≤ finish p := Nat.le_add_right _ _

theorem keyword_refused {p : Parser} {w : Bytes} {e : Event} {m : Malformed}
    (h : p.keyword w e = .error m) : m.offset ≤ finish p := by
  induction w generalizing p with
  | nil => cases h
  | cons b w ih =>
    rw [keyword] at h
    split_ifs at h with hk
    · exact (ih h).trans (took_finish (took_peek hk)).le
    · cases h
      exact offset_le p

theorem digits_refused {p : Parser} {m : Malformed} (h : p.digits = .error m) :
    m.offset ≤ finish p := by
  rw [digits] at h
  split_ifs at h
  cases h
  exact offset_le p

theorem whole_refused {p : Parser} {m : Malformed} (h : p.whole = .error m) :
    m.offset ≤ finish p := by
  rw [whole] at h
  split at h
  · split_ifs at h
    · exact digits_refused h
    · cases h
      exact offset_le p
  · cases h
    exact offset_le p

theorem fraction_refused {p : Parser} {m : Malformed} (h : p.fraction = .error m) :
    m.offset ≤ finish p := by
  rw [fraction] at h
  split_ifs at h with hk
  exact (digits_refused h).trans (took_finish (took_peek hk)).le

theorem advance_finish {p : Parser} {b : UInt8} (h : p.peek = some b) :
    finish (p.advance 1) = finish p := took_finish (took_peek h)

theorem exponent_refused {p : Parser} {m : Malformed} (h : p.exponent = .error m) :
    m.offset ≤ finish p := by
  have hmark : p.peek = some (byte 'e') ∨ p.peek = some (byte 'E') := by
    by_contra hk
    rw [exponent, if_neg hk] at h
    cases h
  have hone : finish (p.advance 1) = finish p := hmark.elim advance_finish advance_finish
  rw [exponent, if_pos hmark] at h
  dsimp only at h
  split_ifs at h with hsign
  · have htwo := hsign.elim advance_finish advance_finish
    exact (digits_refused h).trans (htwo.trans hone).le
  · exact (digits_refused h).trans hone.le

theorem number_refused {p : Parser} {m : Malformed} (h : p.number = .error m) :
    m.offset ≤ finish p := by
  obtain ⟨minus, hm, -⟩ := took_minus p
  rw [number] at h
  rcases bind_eq_error.mp h with h | ⟨q, hq, h⟩
  · exact (whole_refused h).trans (took_finish hm).le
  · obtain ⟨w, hw, -⟩ := took_whole hq
    have hwhole := (took_finish hw).trans (took_finish hm)
    rcases bind_eq_error.mp h with h | ⟨r, hr, h⟩
    · exact (fraction_refused h).trans hwhole.le
    · obtain ⟨f, hf, -⟩ := took_fraction hr
      exact (exponent_refused h).trans ((took_finish hf).trans hwhole).le

theorem hex4_refused {p : Parser} {m : Malformed} (h : p.hex4 = .error m) : m.offset = p.offset := by
  rw [Parser.hex4] at h
  split at h
  · cases h
    rfl
  · cases h

theorem escape_refused {p : Parser} {m : Malformed} (hp : p.peek = some (byte '\\'))
    (h : p.escape = .error m) : m.offset ≤ finish p := by
  have hone := advance_finish hp
  have hplace := offset_le (p.advance 1)
  rw [escape] at h
  dsimp only at h
  cases hk : (p.advance 1).peek with
  | none =>
    simp only [hk, Except.error.injEq] at h
    subst h
    exact hplace.trans hone.le
  | some b =>
    have htwo := (advance_finish hk).trans hone
    simp only [hk] at h
    split_ifs at h
    · rcases bind_eq_error.mp h with h | ⟨⟨point, q⟩, hq, h⟩
      · rw [hex4_refused h]
        exact (offset_le _).trans htwo.le
      · obtain ⟨_, _, _, _, ht, -⟩ := took_hex4 hq
        have hsix := (took_finish ht).trans htwo
        dsimp only at h
        split_ifs at h with _ hmark
        · cases h
          exact (offset_le q).trans hsix.le
        · have height := (took_finish (took_pair (not_not.mp hmark))).trans hsix
          rcases bind_eq_error.mp h with h | ⟨⟨low, r⟩, hr, h⟩
          · rw [hex4_refused h]
            exact (offset_le _).trans height.le
          · dsimp only at h
            split_ifs at h
            cases h
            exact (offset_le (q.advance 2)).trans height.le
        · cases h
          exact offset_le p
    · cases h
      exact hplace.trans hone.le

theorem scan_refused {p : Parser} {m : Malformed} (h : scan p = .error m) :
    m.offset ≤ finish p := by
  fun_induction scan p with
  | case1 p hp =>
    cases h
    exact offset_le p
  | case2 => cases h
  | case3 p malformed he hp hq =>
    cases h
    exact escape_refused hp he
  | case4 p r he hp hq ih =>
    obtain ⟨w, c, ht, -⟩ := took_escape hp he
    exact (ih h).trans (took_finish ht).le
  | case5 p =>
    cases h
    exact offset_le p
  | case6 p b hp hq hb hle ih => exact (ih h).trans (advance_finish hp).le

theorem fromUtf8_refused {bytes : Bytes} {valid : ℕ} (h : fromUtf8 bytes = .error valid) :
    valid ≤ bytes.length := by
  fun_induction fromUtf8 bytes generalizing valid with
  | case1 => cases h
  | case2 b rest hd =>
    cases h
    exact Nat.zero_le _
  | case3 b rest c hd cs hcs ih => cases h
  | case4 b rest c hd valid' hvalid ih =>
    cases h
    have hle := ih hvalid
    have hsize := eq_of_decodeChar?_eq_some hd
    have hlength := congrArg List.length hsize
    have hchar := String.length_utf8EncodeChar c
    have hpos := c.utf8Size_pos
    rw [List.length_append, List.length_drop] at hlength
    rw [List.length_drop] at hle
    simp only [List.length_cons] at hlength ⊢
    omega

theorem string_refused {p : Parser} {m : Malformed} (hp : p.peek = some (byte '"'))
    (h : string p = .error m) : m.offset ≤ finish p := by
  have hone := advance_finish hp
  rw [string] at h
  rcases bind_eq_error.mp h with h | ⟨q, hq, h⟩
  · exact (scan_refused h).trans hone.le
  · obtain ⟨w, ht, -, -⟩ := took_scan hq
    dsimp only at h
    split at h
    · rename_i valid hvalid
      cases h
      rw [ht.upTo] at hvalid
      have hle := fromUtf8_refused hvalid
      have hlength := congrArg List.length ht.rest
      rw [List.length_append] at hlength
      rw [← hone, finish]
      exact Nat.add_le_add_left (by omega) _
    · cases h

theorem open_refused {p : Parser} {object : Bool} {m : Malformed}
    (h : p.open object = .error m) : m.offset ≤ finish p := by
  rw [Parser.open] at h
  split_ifs at h
  cases h
  exact offset_le p

theorem refused_of_answering {α β : Type} {x : Except Malformed α} {f : α → β} {m : Malformed}
    (h : (x >>= fun q => pure (f q)) = .error m) : x = .error m := by
  rcases bind_eq_error.mp h with h | ⟨q, -, h⟩
  · exact h
  · cases h

theorem value_refused {p : Parser} {m : Malformed} (h : value p = .error m) :
    m.offset ≤ finish p := by
  rw [value] at h
  split at h
  · cases h
    exact offset_le p
  · rename_i b hk
    split_ifs at h with hn ht hf hquote
    · exact keyword_refused h
    · exact keyword_refused h
    · exact keyword_refused h
    · rcases bind_eq_error.mp h with h | ⟨r, -, h⟩
      · exact string_refused (hk.trans (congrArg some hquote)) h
      · cases h
    · exact open_refused (refused_of_answering h)
    · exact open_refused (refused_of_answering h)
    · exact number_refused (refused_of_answering h)
    · cases h
      exact offset_le p

theorem valueStep_refused {p : Parser} {closes : Bool} {m : Malformed}
    (h : valueStep p closes = .error m) : m.offset ≤ finish p := by
  rw [valueStep] at h
  split_ifs at h
  exact value_refused h

theorem spaces_finish (p : Parser) : finish p.spaces = finish p := by
  obtain ⟨w, ht, -⟩ := took_spaces p
  exact took_finish ht

theorem keyStep_refused {p : Parser} {closes : Bool} {m : Malformed}
    (h : keyStep p closes = .error m) : m.offset ≤ finish p := by
  rw [keyStep] at h
  split_ifs at h with hend hkey
  · rcases bind_eq_error.mp h with h | ⟨⟨text, q⟩, hq, h⟩
    · exact string_refused hkey h
    · obtain ⟨ht, -⟩ := took_string hkey hq
      dsimp only at h
      split_ifs at h
      · cases h
        exact (offset_le _).trans ((spaces_finish q).trans (took_finish ht)).le
      · cases h
  · cases h
    exact offset_le p

theorem insideStep_refused {p : Parser} {object : Bool} {m : Malformed}
    (h : insideStep p object = .error m) : m.offset ≤ finish p := by
  rw [insideStep] at h
  split_ifs at h with hcomma hobject
  · have hone : finish { p.advance 1 with next := .key false } = finish p := advance_finish hcomma
    exact (keyStep_refused h).trans ((spaces_finish _).trans hone).le
  · have hone : finish { p.advance 1 with next := .value false } = finish p :=
      advance_finish hcomma
    exact (valueStep_refused h).trans ((spaces_finish _).trans hone).le
  · cases h
    exact offset_le p

theorem step_refused {p : Parser} {m : Malformed} (h : step p = some (.error m)) :
    m.offset ≤ finish p := by
  rw [← spaces_finish p]
  rw [step] at h
  split at h
  · cases h
  · exact valueStep_refused (Option.some.inj h)
  · exact keyStep_refused (Option.some.inj h)
  · split at h
    · exact insideStep_refused (Option.some.inj h)
    · split_ifs at h
      cases h
      exact offset_le _

theorem stepped_finish {p q : Parser} {e : Event} (h : Stepped p e q) : finish q = finish p := by
  cases h with
  | scalar _ _ _ _ hto => exact tookTo_finish hto
  | beginArray _ _ hto => exact tookTo_finish hto
  | beginObject _ _ hto => exact tookTo_finish hto
  | key _ _ _ hto => exact tookTo_finish hto
  | endArray _ _ hto => exact tookTo_finish hto
  | endObject _ _ hto => exact tookTo_finish hto

theorem readFrom_refused {p : Parser} {m : Malformed} (h : (readFrom p).2 = .error m) :
    m.offset ≤ finish p := by
  fun_induction readFrom p with
  | case1 => cases h
  | case2 p malformed hs =>
    cases h
    exact step_refused hs
  | case3 p e q hs events answer hq ih =>
    rw [hq] at ih
    exact (ih h).trans (stepped_finish (step_stepped hs)).le

end SoutherNative.JsonRefusing
