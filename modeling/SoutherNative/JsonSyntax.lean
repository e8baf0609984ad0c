import SoutherNative.JsonGrammar

set_option autoImplicit false

/-!
# The parser of a document

The state machine of the `json-syntax` crate over its scanner: strings, values, and the steps
`read` drives. What each piece read is in the grammar stands beside it, since that a step reads
something is why `read` ends.
-/
namespace SoutherNative.JsonSyntax
open Utf8 JsonScanner JsonScanner.Parser JsonGrammar

theorem plainEscape_escape {b : UInt8} (h : isPlainEscape b = true) :
    ∃ c, Escape [byte '\\', b] c := by
  simp only [isPlainEscape, List.mem_cons, List.not_mem_nil, or_false, decide_eq_true_eq] at h
  rcases h with rfl | rfl | rfl | rfl | rfl | rfl | rfl | rfl
  · exact ⟨_, .quote⟩
  · exact ⟨_, .backslash⟩
  · exact ⟨_, .slash⟩
  · exact ⟨_, .backspace⟩
  · exact ⟨_, .formFeed⟩
  · exact ⟨_, .newline⟩
  · exact ⟨_, .carriageReturn⟩
  · exact ⟨_, .tab⟩

theorem took_pair {p : Parser} {x y : UInt8} (h : p.rest.take 2 = [x, y]) :
    Took p [x, y] (p.advance 2) := by
  have hr : p.rest = [x, y] ++ p.rest.drop 2 := by
    rw [← h, List.take_append_drop]
  exact took_advance p hr

theorem took_escape {p q : Parser} (hp : p.peek = some (byte '\\')) (h : p.escape = .ok q) :
    ∃ w c, Took p w q ∧ Escape w c := by
  have hb := took_peek hp
  unfold escape at h
  cases hk : (p.advance 1).peek with
  | none => simp [hk] at h
  | some b =>
    simp only [hk] at h
    have hm := hb.trans (took_peek hk)
    split_ifs at h with hplain hu
    · simp only [Except.ok.injEq] at h
      subst h
      obtain ⟨c, hc⟩ := plainEscape_escape hplain
      exact ⟨_, c, hm, hc⟩
    · subst hu
      obtain ⟨⟨point, r⟩, hx, h⟩ := bind_eq_ok.mp h
      obtain ⟨a, b, c, d, ht, hv⟩ := took_hex4 hx
      have hr := hm.trans ht
      dsimp only at h
      split_ifs at h with hhigh hmark hlow
      · obtain ⟨⟨low, s⟩, hy, h⟩ := bind_eq_ok.mp h
        obtain ⟨e, f, g, i, ht', hv'⟩ := took_hex4 hy
        dsimp only at h
        split_ifs at h with hl
        simp only [Except.ok.injEq] at h
        subst h
        have hpair := took_pair (not_not.mp hmark)
        exact ⟨_, _, (hr.trans hpair).trans ht', .pair hv hv' hhigh hl⟩
      · simp only [Except.ok.injEq] at h
        subst h
        exact ⟨_, _, hr, .unit hv (by simpa using hhigh) (by simpa using hlow)⟩

theorem escape_ne_nil {w : Bytes} {c : Char} (h : Escape w c) : w ≠ [] := by
  cases h <;> simp

theorem escape_progress {p q : Parser} (hp : p.peek = some (byte '\\')) (h : p.escape = .ok q) :
    q.rest.length < p.rest.length := by
  obtain ⟨w, c, ht, he⟩ := took_escape hp h
  have hw := List.length_pos_iff.mpr (escape_ne_nil he)
  rw [ht.rest, List.length_append]
  omega

/-- The loop of `string`: up to the closing quote, which is left. -/
def scan (p : Parser) : Except Malformed Parser :=
  match _hp : p.peek with
  | none => .error ⟨p.offset⟩
  | some b =>
    if b = byte '"' then .ok p
    else if _hb : b = byte '\\' then
      match _he : p.escape with
      | .error malformed => .error malformed
      | .ok q => scan q
    else if b ≤ 0x1f then .error ⟨p.offset⟩
    else scan (p.advance 1)
termination_by p.rest.length
decreasing_by
  · exact escape_progress (_hp.trans (congrArg some _hb)) _he
  · rw [(took_peek _hp).rest]
    simp

def string (p : Parser) : Except Malformed (Text × Parser) := do
  let start := p.advance 1
  let q ← scan start
  let written := start.upTo q
  match fromUtf8 written with
  | .error validUpTo => .error ⟨start.offset + validUpTo⟩
  | .ok _ => .ok (⟨written⟩, q.advance 1)

def value (p : Parser) : Except Malformed (Event × Parser) :=
  match p.peek with
  | none => .error ⟨p.offset⟩
  | some b =>
    if b = byte 'n' then p.keyword (word "null") .null
    else if b = byte 't' then p.keyword (word "true") (.bool true)
    else if b = byte 'f' then p.keyword (word "false") (.bool false)
    else if b = byte '"' then do
      let (text, q) ← string p
      return (.string text, q.afterAValue)
    else if b = byte '[' then do
      let q ← p.open false
      return (.beginArray, q)
    else if b = byte '{' then do
      let q ← p.open true
      return (.beginObject, q)
    else if b = byte '-' ∨ isDigit b = true then do
      let q ← p.number
      return (.number (p.upTo q), q.afterAValue)
    else .error ⟨p.offset⟩

/-- `step` where the next piece is a value, or the array closing. -/
def valueStep (p : Parser) (closes : Bool) : Except Malformed (Event × Parser) :=
  if closes = true ∧ p.peek = some (byte ']') then .ok (.endArray, p.close) else value p

/-- `step` where the next piece is a member's key, or the object closing. -/
def keyStep (p : Parser) (closes : Bool) : Except Malformed (Event × Parser) :=
  if p.peek = some (byte '}') ∧ closes = true then .ok (.endObject, p.close)
  else if p.peek = some (byte '"') then do
    let (key, q) ← string p
    let q := q.spaces
    if q.peek ≠ some (byte ':') then .error ⟨q.offset⟩
    else return (.key key, { q.advance 1 with next := .value false })
  else .error ⟨p.offset⟩

/-- `step` after a value inside a container. After a comma the next piece is read straight away,
as the parser's own call of itself does. -/
def insideStep (p : Parser) (object : Bool) : Except Malformed (Event × Parser) :=
  if p.peek = some (byte ',') then
    let next := if object then Next.key false else Next.value false
    let p := Parser.spaces { p.advance 1 with next := next }
    if object then keyStep p false else valueStep p false
  else if p.peek = some (byte ']') ∧ object = false then .ok (.endArray, p.close)
  else if p.peek = some (byte '}') ∧ object = true then .ok (.endObject, p.close)
  else .error ⟨p.offset⟩

def step (p : Parser) : Option (Except Malformed (Event × Parser)) :=
  let p := p.spaces
  match p.next with
  | .done => none
  | .value closes => some (valueStep p closes)
  | .key closes => some (keyStep p closes)
  | .after =>
    match p.objects with
    | object :: _ => some (insideStep p object)
    | [] => if p.rest = [] then none else some (.error ⟨p.offset⟩)

theorem takeWhile_append_drop (f : UInt8 → Bool) (bytes : Bytes) :
    bytes = bytes.takeWhile f ++ bytes.drop (bytes.takeWhile f).length := by
  induction bytes with
  | nil => rfl
  | cons b bytes ih =>
    by_cases hb : f b = true
    · simpa [List.takeWhile_cons_of_pos hb] using ih
    · simp [List.takeWhile_cons_of_neg hb]

theorem took_takeWhile (p : Parser) (f : UInt8 → Bool) :
    Took p (p.rest.takeWhile f) (p.advance (p.rest.takeWhile f).length) :=
  took_advance p (takeWhile_append_drop f p.rest)

theorem took_spaces (p : Parser) : ∃ w, Took p w p.spaces ∧ Spaces w :=
  ⟨_, took_takeWhile p isSpace, fun _ hb => List.mem_takeWhile_imp hb⟩

theorem took_digits {p q : Parser} (h : p.digits = .ok q) : ∃ ds, Took p ds q ∧ Digits ds := by
  have ht := took_takeWhile p isDigit
  unfold digits at h
  dsimp only at h
  split_ifs at h with hz
  simp only [Except.ok.injEq] at h
  subst h
  refine ⟨_, ht, ?_, fun b hb => List.mem_takeWhile_imp hb⟩
  intro hn
  rw [hn] at hz
  simp [advance] at hz

theorem took_whole {p q : Parser} (h : p.whole = .ok q) : ∃ w, Took p w q ∧ Whole w := by
  unfold whole at h
  cases hk : p.peek with
  | none => simp [hk] at h
  | some b =>
    simp only [hk] at h
    split_ifs at h with hz hd
    · simp only [Except.ok.injEq] at h
      subst hz h
      exact ⟨_, took_peek hk, .inl rfl⟩
    · obtain ⟨ds, ht, hne, hall⟩ := took_digits h
      obtain ⟨d, rest, rfl⟩ := List.exists_cons_of_ne_nil hne
      have hbd : d = b := by
        have hr := ht.rest
        simp only [peek, hr, List.cons_append, List.head?_cons, Option.some.injEq] at hk
        exact hk
      subst hbd
      exact ⟨_, ht, .inr ⟨d, rest, rfl, hall d (by simp), hz, fun x hx => hall x (by simp [hx])⟩⟩

theorem took_fraction {p q : Parser} (h : p.fraction = .ok q) : ∃ f, Took p f q ∧ Fraction f := by
  unfold fraction at h
  split_ifs at h with hk
  · obtain ⟨ds, ht, hd⟩ := took_digits h
    exact ⟨_, (took_peek hk).trans ht, .inr ⟨ds, rfl, hd⟩⟩
  · simp only [Except.ok.injEq] at h
    subst h
    exact ⟨[], .refl p, .inl rfl⟩

theorem took_sign {p q : Parser}
    (h : (if p.peek = some (byte '+') ∨ p.peek = some (byte '-') then (p.advance 1).digits
      else p.digits) = .ok q) : ∃ sign ds, Took p (sign ++ ds) q ∧ Sign sign ∧ Digits ds := by
  split_ifs at h with hk
  · obtain ⟨ds, ht, hd⟩ := took_digits h
    rcases hk with hk | hk
    · exact ⟨_, ds, (took_peek hk).trans ht, .inr (.inl rfl), hd⟩
    · exact ⟨_, ds, (took_peek hk).trans ht, .inr (.inr rfl), hd⟩
  · obtain ⟨ds, ht, hd⟩ := took_digits h
    exact ⟨[], ds, ht, .inl rfl, hd⟩

theorem took_exponent {p q : Parser} (h : p.exponent = .ok q) : ∃ e, Took p e q ∧ Exponent e := by
  unfold exponent at h
  by_cases hk : p.peek = some (byte 'e') ∨ p.peek = some (byte 'E')
  · simp only [hk, ↓reduceIte] at h
    obtain ⟨sign, ds, ht, hs, hd⟩ := took_sign h
    rcases hk with hk | hk
    · exact ⟨_, (took_peek hk).trans ht, .inr ⟨_, sign, ds, rfl, .inl rfl, hs, hd⟩⟩
    · exact ⟨_, (took_peek hk).trans ht, .inr ⟨_, sign, ds, rfl, .inr rfl, hs, hd⟩⟩
  · simp only [hk, ↓reduceIte, Except.ok.injEq] at h
    subst h
    exact ⟨[], .refl p, .inl rfl⟩

theorem took_minus (p : Parser) :
    ∃ m, Took p m (if p.peek = some (byte '-') then p.advance 1 else p) ∧ Minus m := by
  split_ifs with hk
  · exact ⟨_, took_peek hk, .inr rfl⟩
  · exact ⟨[], .refl p, .inl rfl⟩

theorem took_number {p q : Parser} (h : p.number = .ok q) : ∃ n, Took p n q ∧ IsNumber n := by
  unfold number at h
  obtain ⟨m, hm, hminus⟩ := took_minus p
  obtain ⟨r, hw, h⟩ := bind_eq_ok.mp h
  obtain ⟨s, hf, he⟩ := bind_eq_ok.mp h
  obtain ⟨w, htw, hwhole⟩ := took_whole hw
  obtain ⟨f, htf, hfraction⟩ := took_fraction hf
  obtain ⟨e, hte, hexponent⟩ := took_exponent he
  exact ⟨_, ((hm.trans htw).trans htf).trans hte,
    m, w, f, e, rfl, hminus, hwhole, hfraction, hexponent⟩

theorem took_keyword {p q : Parser} {w : Bytes} {e e' : Event}
    (h : p.keyword w e = .ok (e', q)) :
    e' = e ∧ ∃ r, Took p w r ∧ q = r.afterAValue := by
  induction w generalizing p with
  | nil =>
    simp only [keyword, Except.ok.injEq, Prod.mk.injEq] at h
    exact ⟨h.1.symm, p, .refl p, h.2.symm⟩
  | cons b w ih =>
    simp only [keyword] at h
    split_ifs at h with hk
    obtain ⟨he, r, ht, hq⟩ := ih h
    exact ⟨he, r, (took_peek hk).trans ht, hq⟩

/-- What the loop of `string` reads before it is held to be UTF-8. -/
inductive Raw : Bytes → Prop
  | nil : Raw []
  | plain {b : UInt8} {rest : Bytes} : b ≠ byte '"' → b ≠ byte '\\' → 0x1f < b → Raw rest →
      Raw (b :: rest)
  | escape {w rest : Bytes} {c : Char} : Escape w c → Raw rest → Raw (w ++ rest)

theorem took_scan {p q : Parser} (h : scan p = .ok q) :
    ∃ w, Took p w q ∧ Raw w ∧ q.peek = some (byte '"') := by
  fun_induction scan p with
  | case1 => simp at h
  | case2 p hp =>
    simp only [Except.ok.injEq] at h
    subst h
    exact ⟨[], .refl _, .nil, hp⟩
  | case3 => simp at h
  | case4 p r he hp hq ih =>
    obtain ⟨w, ht, hr, hpeek⟩ := ih h
    obtain ⟨v, c, htv, hc⟩ := took_escape hp he
    exact ⟨v ++ w, htv.trans ht, .escape hc hr, hpeek⟩
  | case5 => simp at h
  | case6 p b hp hq hb hle ih =>
    obtain ⟨w, ht, hr, hpeek⟩ := ih h
    exact ⟨_, (took_peek hp).trans ht, .plain hq hb (UInt8.not_le.mp hle) hr, hpeek⟩

theorem escape_head {w : Bytes} {c : Char} (h : Escape w c) : w.head? = some (byte '\\') := by
  cases h <;> rfl

theorem nibble_ascii {b : UInt8} {v : ℕ} (h : nibble b = some v) : b.toNat < 0x80 := by
  unfold nibble at h
  have h9 : (byte '9').toNat = 0x39 := rfl
  have hf : (byte 'f').toNat = 0x66 := rfl
  have hF : (byte 'F').toNat = 0x46 := rfl
  simp only [UInt8.le_iff_toNat_le] at h
  split_ifs at h <;> omega

theorem hex4_ascii {a b c d : UInt8} {point : ℕ} (h : JsonScanner.hex4 [a, b, c, d] = some point) :
    ∀ x ∈ [a, b, c, d], x.toNat < 0x80 := by
  simp only [JsonScanner.hex4, Option.bind_eq_bind, Option.bind_eq_some_iff] at h
  obtain ⟨va, ha, vb, hb, vc, hc, vd, hd, -⟩ := h
  simp only [List.mem_cons, List.not_mem_nil, or_false, forall_eq_or_imp, forall_eq]
  exact ⟨nibble_ascii ha, nibble_ascii hb, nibble_ascii hc, nibble_ascii hd⟩

theorem escape_ascii {w : Bytes} {c : Char} (h : Escape w c) : ∀ b ∈ w, b.toNat < 0x80 := by
  cases h with
  | unit hp =>
    intro b hb
    have hx := hex4_ascii hp
    simp only [List.mem_cons, List.not_mem_nil, or_false] at hb hx
    rcases hb with rfl | rfl | hb
    · decide
    · decide
    · exact hx b hb
  | pair hhigh hlow =>
    intro b hb
    have hx := hex4_ascii hhigh
    have hy := hex4_ascii hlow
    simp only [List.mem_cons, List.not_mem_nil, or_false] at hb hx hy
    rcases hb with rfl | rfl | h | h | h | h | rfl | rfl | hb
    · decide
    · decide
    · exact hx b (.inl h)
    · exact hx b (.inr (.inl h))
    · exact hx b (.inr (.inr (.inl h)))
    · exact hx b (.inr (.inr (.inr h)))
    · decide
    · decide
    · exact hy b hb
  | _ =>
    simp only [List.mem_cons, List.not_mem_nil, or_false, forall_eq_or_imp, forall_eq]
    decide

theorem raw_of_append {w rest : Bytes} (hw : ∀ b ∈ w, 0x80 ≤ b.toNat) (h : Raw (w ++ rest)) :
    Raw rest := by
  induction w with
  | nil => exact h
  | cons b w ih =>
    apply ih (fun x hx => hw x (by simp [hx]))
    have hb := hw b (by simp)
    rw [List.cons_append] at h
    generalize hbs : b :: (w ++ rest) = bs at h
    cases h with
    | nil => simp at hbs
    | plain _ _ _ hr =>
      obtain ⟨-, rfl⟩ := List.cons.inj hbs
      exact hr
    | @escape v _ _ hc _ =>
      have hh := escape_head hc
      obtain ⟨x, xs, rfl⟩ := List.exists_cons_of_ne_nil (escape_ne_nil hc)
      rw [List.cons_append] at hbs
      obtain ⟨rfl, -⟩ := List.cons.inj hbs
      simp only [List.head?_cons, Option.some.injEq] at hh
      subst hh
      exact absurd hb (by decide)

theorem plain_piece {b : UInt8} {c : Char} (hc : c.toNat < 0x80) (hb : UInt8.ofNat c.toNat = b)
    (hq : b ≠ byte '"') (hs : b ≠ byte '\\') (hle : 0x1f < b) : Piece [b] c := by
  have hu : String.utf8EncodeChar c = [b] := hb ▸ encodeChar_ascii hc
  rw [← hu]
  refine .plain c ?_ ?_ ?_
  · have hn : b.toNat = c.toNat := by
      rw [← hb, UInt8.toNat_ofNat']
      omega
    have := UInt8.lt_iff_toNat_lt.mp hle
    have h1f : (0x1f : UInt8).toNat = 0x1f := rfl
    omega
  · rintro rfl
    exact hq hb.symm
  · rintro rfl
    exact hs hb.symm

theorem raw_spells {ds : List Char} {w : Bytes} (hw : w = encode ds) (h : Raw w) : IsText w := by
  induction hn : ds.length using Nat.strong_induction_on generalizing ds w with
  | _ n ih =>
    cases h with
    | nil => exact ⟨[], .nil⟩
    | @plain b rest hq hs hle hr =>
      cases ds with
      | nil => simp at hw
      | cons d ds =>
        have hlt : ds.length < n := by
          rw [← hn]
          simp
        by_cases hd : d.toNat < 0x80
        · rw [encode_cons, encodeChar_ascii hd] at hw
          obtain ⟨hb, hrest⟩ := List.cons.inj hw
          obtain ⟨cs, hcs⟩ := ih _ hlt hrest hr rfl
          exact ⟨d :: cs, .cons (plain_piece hd hb.symm hq hs hle) hcs⟩
        · have hraw : Raw (b :: rest) := .plain hq hs hle hr
          rw [hw, encode_cons] at hraw
          have htail := raw_of_append (encodeChar_not_ascii (by omega)) hraw
          obtain ⟨cs, hcs⟩ := ih _ hlt rfl htail rfl
          rw [hw, encode_cons]
          refine ⟨d :: cs, .cons (.plain d (by omega) ?_ ?_) hcs⟩
          · rintro rfl
            exact hd (by decide)
          · rintro rfl
            exact hd (by decide)
    | @escape v rest c hc hr =>
      obtain ⟨es, hes, hl⟩ := encode_ascii_prefix (escape_ascii hc) hw.symm
      have hv := List.length_pos_iff.mpr (escape_ne_nil hc)
      obtain ⟨cs, hcs⟩ := ih _ (by omega) hes.symm hr rfl
      exact ⟨c :: cs, .cons (.escape hc) hcs⟩

theorem took_string {p q : Parser} {text : Text} (hp : p.peek = some (byte '"'))
    (h : string p = .ok (text, q)) : Took p (quoted text) q ∧ IsText text.written := by
  unfold string at h
  obtain ⟨r, hs, h⟩ := bind_eq_ok.mp h
  obtain ⟨w, ht, hraw, hpeek⟩ := took_scan hs
  rw [ht.upTo] at h
  cases hu : fromUtf8 w with
  | error valid => simp [hu] at h
  | ok ds =>
    simp only [hu, Except.ok.injEq, Prod.mk.injEq] at h
    obtain ⟨rfl, rfl⟩ := h
    exact ⟨((took_peek hp).trans ht).trans (took_peek hpeek),
      raw_spells ((fromUtf8_eq_ok w ds).mp hu) hraw⟩

/-- `q` has read `taken` past `p` and reads `next` from there, inside `objects`. -/
structure TookTo (p : Parser) (taken : Bytes) (next : Next) (objects : List Bool) (q : Parser) :
    Prop where
  rest : p.rest = taken ++ q.rest
  offset : q.offset = p.offset + taken.length
  next : q.next = next
  objects : q.objects = objects

theorem TookTo.trans {p q r : Parser} {lead taken : Bytes} {next next' : Next}
    {objects objects' : List Bool} (hl : TookTo p lead next objects r)
    (ht : TookTo r taken next' objects' q) : TookTo p (lead ++ taken) next' objects' q := by
  refine ⟨?_, ?_, ht.next, ht.objects⟩
  · rw [hl.rest, ht.rest, List.append_assoc]
  · rw [ht.offset, hl.offset, List.length_append, Nat.add_assoc]

theorem tookTo_of_took {p q : Parser} {taken : Bytes} (ht : Took p taken q) :
    TookTo p taken p.next p.objects q :=
  ⟨ht.rest, ht.offset, ht.next, ht.objects⟩

theorem tookTo_close {p : Parser} {b : UInt8} (h : p.peek = some b) :
    TookTo p [b] .after p.objects.tail p.close :=
  ⟨(took_peek h).rest, (took_peek h).offset, rfl, rfl⟩

inductive ValueLead (p : Parser) : Bytes → Prop
  | here {closes : Bool} {w : Bytes} : p.next = .value closes → Spaces w → ValueLead p w
  | comma {objects : List Bool} {w v : Bytes} : p.next = .after → p.objects = false :: objects →
      Spaces w → Spaces v → ValueLead p (w ++ byte ',' :: v)

inductive KeyLead (p : Parser) : Bytes → Prop
  | here {closes : Bool} {w : Bytes} : p.next = .key closes → Spaces w → KeyLead p w
  | comma {objects : List Bool} {w v : Bytes} : p.next = .after → p.objects = true :: objects →
      Spaces w → Spaces v → KeyLead p (w ++ byte ',' :: v)

inductive Stepped (p : Parser) : Event → Parser → Prop
  | scalar {lead b : Bytes} {d : Doc} {e : Event} {q : Parser} : ValueLead p lead → Writes d b →
      d.events = [e] → d.depth = 0 → TookTo p (lead ++ b) .after p.objects q → Stepped p e q
  | beginArray {lead : Bytes} {q : Parser} : ValueLead p lead → p.objects.length ≠ deepest →
      TookTo p (lead ++ [byte '[']) (.value true) (false :: p.objects) q → Stepped p .beginArray q
  | beginObject {lead : Bytes} {q : Parser} : ValueLead p lead → p.objects.length ≠ deepest →
      TookTo p (lead ++ [byte '{']) (.key true) (true :: p.objects) q → Stepped p .beginObject q
  | key {lead w : Bytes} {key : Text} {q : Parser} : KeyLead p lead → IsText key.written →
      Spaces w → TookTo p (lead ++ quoted key ++ w ++ [byte ':']) (.value false) p.objects q →
      Stepped p (.key key) q
  | endArray {w : Bytes} {q : Parser} :
      p.next = .value true ∨ p.next = .after ∧ p.objects.head? = some false → Spaces w →
      TookTo p (w ++ [byte ']']) .after p.objects.tail q → Stepped p .endArray q
  | endObject {w : Bytes} {q : Parser} :
      p.next = .key true ∨ p.next = .after ∧ p.objects.head? = some true → Spaces w →
      TookTo p (w ++ [byte '}']) .after p.objects.tail q → Stepped p .endObject q

theorem tookTo_open {p q : Parser} {b : UInt8} {object : Bool} (hb : p.peek = some b)
    (h : p.open object = .ok q) : p.objects.length ≠ deepest ∧
      TookTo p [b] (if object then .key true else .value true) (object :: p.objects) q := by
  unfold Parser.open at h
  by_cases hdeep : p.depth = deepest
  · simp [hdeep] at h
  · simp only [hdeep, ↓reduceIte, Except.ok.injEq] at h
    subst h
    exact ⟨hdeep, (took_peek hb).rest, rfl, rfl, rfl⟩

theorem TookTo.took {p r s : Parser} {lead taken : Bytes} {next : Next}
    (hl : TookTo p lead next p.objects r) (ht : Took r taken s) :
    TookTo p (lead ++ taken) .after p.objects s.afterAValue := by
  refine ⟨?_, ?_, rfl, ht.objects.trans hl.objects⟩
  · rw [hl.rest, ht.rest, List.append_assoc]
    rfl
  · rw [List.length_append, ← Nat.add_assoc, ← hl.offset]
    exact ht.offset

theorem keyword_stepped {p r q : Parser} {lead w : Bytes} {next : Next} {d : Doc} {e e' : Event}
    (hl : TookTo p lead next p.objects r) (hlead : ValueLead p lead) (hw : Writes d w)
    (hd : d.events = [e']) (hz : d.depth = 0) (h : r.keyword w e' = .ok (e, q)) :
    Stepped p e q := by
  obtain ⟨rfl, s, ht, rfl⟩ := took_keyword h
  exact .scalar hlead hw hd hz (hl.took ht)

theorem value_stepped {p r q : Parser} {lead : Bytes} {next : Next} {e : Event}
    (hl : TookTo p lead next p.objects r) (hlead : ValueLead p lead) (h : value r = .ok (e, q)) :
    Stepped p e q := by
  unfold value at h
  cases hk : r.peek with
  | none => simp [hk] at h
  | some b =>
    simp only [hk] at h
    split_ifs at h with hn ht hf hquote harray hobject hnumber
    · exact keyword_stepped hl hlead .null rfl rfl h
    · exact keyword_stepped hl hlead .true rfl rfl h
    · exact keyword_stepped hl hlead .false rfl rfl h
    · obtain ⟨⟨text, s⟩, hs, h⟩ := bind_eq_ok.mp h
      obtain ⟨htook, htext⟩ := took_string (hk.trans (congrArg some hquote)) hs
      simp only [pure, Except.pure, Except.ok.injEq, Prod.mk.injEq] at h
      obtain ⟨rfl, rfl⟩ := h
      exact .scalar hlead (.string htext) rfl rfl (hl.took htook)
    · obtain ⟨s, hs, h⟩ := bind_eq_ok.mp h
      simp only [pure, Except.pure, Except.ok.injEq, Prod.mk.injEq] at h
      obtain ⟨rfl, rfl⟩ := h
      obtain ⟨hdeep, hto⟩ := tookTo_open (hk.trans (congrArg some harray)) hs
      rw [hl.objects] at hdeep hto
      exact .beginArray hlead hdeep (hl.trans hto)
    · obtain ⟨s, hs, h⟩ := bind_eq_ok.mp h
      simp only [pure, Except.pure, Except.ok.injEq, Prod.mk.injEq] at h
      obtain ⟨rfl, rfl⟩ := h
      obtain ⟨hdeep, hto⟩ := tookTo_open (hk.trans (congrArg some hobject)) hs
      rw [hl.objects] at hdeep hto
      exact .beginObject hlead hdeep (hl.trans hto)
    · obtain ⟨s, hs, h⟩ := bind_eq_ok.mp h
      obtain ⟨n, htook, hn⟩ := took_number hs
      simp only [pure, Except.pure, Except.ok.injEq, Prod.mk.injEq, htook.upTo] at h
      obtain ⟨rfl, rfl⟩ := h
      exact .scalar hlead (.number hn) rfl rfl (hl.took htook)

theorem key_stepped {p r s q : Parser} {lead : Bytes} {next : Next} {text : Text} {e : Event}
    (hl : TookTo p lead next p.objects r) (hlead : KeyLead p lead)
    (hk : r.peek = some (byte '"')) (hs : string r = .ok (text, s))
    (h : (if s.spaces.peek ≠ some (byte ':') then (.error ⟨s.spaces.offset⟩ : Except Malformed _)
      else .ok (.key text, { s.spaces.advance 1 with next := .value false })) = .ok (e, q)) :
    Stepped p e q := by
  obtain ⟨htook, htext⟩ := took_string hk hs
  obtain ⟨w, hw, hspaces⟩ := took_spaces s
  split_ifs at h with hcolon
  simp only [Except.ok.injEq, Prod.mk.injEq] at h
  obtain ⟨rfl, rfl⟩ := h
  have hall := ((tookTo_of_took htook).trans (tookTo_of_took hw)).trans
    (tookTo_of_took (took_peek (not_not.mp hcolon)))
  have hto := hl.trans hall
  refine .key hlead htext hspaces ⟨?_, ?_, rfl, ?_⟩
  · simpa [List.append_assoc] using hto.rest
  · simpa [List.append_assoc] using hto.offset
  · exact hw.objects.trans (htook.objects.trans hl.objects)

theorem valueStep_stepped {p r q : Parser} {lead : Bytes} {closes : Bool} {e : Event}
    (hl : TookTo p lead (.value closes) p.objects r) (hlead : ValueLead p lead)
    (hcloses : closes = true → p.next = .value true ∧ Spaces lead)
    (h : valueStep r closes = .ok (e, q)) : Stepped p e q := by
  unfold valueStep at h
  split_ifs at h with hend
  · simp only [Except.ok.injEq, Prod.mk.injEq] at h
    obtain ⟨rfl, rfl⟩ := h
    obtain ⟨hnext, hspaces⟩ := hcloses hend.1
    have hto := tookTo_close hend.2
    rw [hl.objects] at hto
    exact .endArray (.inl hnext) hspaces (hl.trans hto)
  · exact value_stepped hl hlead h

theorem keyStep_stepped {p r q : Parser} {lead : Bytes} {closes : Bool} {e : Event}
    (hl : TookTo p lead (.key closes) p.objects r) (hlead : KeyLead p lead)
    (hcloses : closes = true → p.next = .key true ∧ Spaces lead)
    (h : keyStep r closes = .ok (e, q)) : Stepped p e q := by
  unfold keyStep at h
  split_ifs at h with hend hkey
  · simp only [Except.ok.injEq, Prod.mk.injEq] at h
    obtain ⟨rfl, rfl⟩ := h
    obtain ⟨hnext, hspaces⟩ := hcloses hend.2
    have hto := tookTo_close hend.1
    rw [hl.objects] at hto
    exact .endObject (.inl hnext) hspaces (hl.trans hto)
  · obtain ⟨⟨text, s⟩, hs, h⟩ := bind_eq_ok.mp h
    exact key_stepped hl hlead hkey hs h

theorem insideStep_stepped {p r q : Parser} {w : Bytes} {object : Bool} {objects : List Bool}
    {e : Event} (hnext : p.next = .after) (hobj : p.objects = object :: objects)
    (hw : Took p w r) (hspaces : Spaces w) (h : insideStep r object = .ok (e, q)) :
    Stepped p e q := by
  have hrobj : r.objects = p.objects := hw.objects
  unfold insideStep at h
  split_ifs at h with hcomma hobject harray hobject'
  · subst hobject
    have hc : TookTo p (w ++ [byte ',']) (.key false) p.objects
        { r.advance 1 with next := .key false } :=
      let ht := hw.trans (took_peek hcomma)
      ⟨ht.rest, ht.offset, rfl, ht.objects⟩
    obtain ⟨v, hv, hvspaces⟩ := took_spaces { r.advance 1 with next := .key false }
    have hto := hc.trans (tookTo_of_took hv)
    rw [List.append_assoc] at hto
    refine keyStep_stepped ⟨hto.rest, hto.offset, hto.next, hto.objects.trans hrobj⟩
      (.comma hnext hobj hspaces hvspaces) (by simp) h
  · have hfalse : object = false := by simpa using hobject
    subst hfalse
    have hc : TookTo p (w ++ [byte ',']) (.value false) p.objects
        { r.advance 1 with next := .value false } :=
      let ht := hw.trans (took_peek hcomma)
      ⟨ht.rest, ht.offset, rfl, ht.objects⟩
    obtain ⟨v, hv, hvspaces⟩ := took_spaces { r.advance 1 with next := .value false }
    have hto := hc.trans (tookTo_of_took hv)
    rw [List.append_assoc] at hto
    refine valueStep_stepped ⟨hto.rest, hto.offset, hto.next, hto.objects.trans hrobj⟩
      (.comma hnext hobj hspaces hvspaces) (by simp) h
  · simp only [Except.ok.injEq, Prod.mk.injEq] at h
    obtain ⟨rfl, rfl⟩ := h
    obtain ⟨hbracket, rfl⟩ := harray
    have hto := (tookTo_of_took hw).trans (tookTo_close hbracket)
    rw [hrobj] at hto
    exact .endArray (.inr ⟨hnext, by rw [hobj]; rfl⟩) hspaces hto
  · simp only [Except.ok.injEq, Prod.mk.injEq] at h
    obtain ⟨rfl, rfl⟩ := h
    obtain ⟨hbrace, rfl⟩ := hobject'
    have hto := (tookTo_of_took hw).trans (tookTo_close hbrace)
    rw [hrobj] at hto
    exact .endObject (.inr ⟨hnext, by rw [hobj]; rfl⟩) hspaces hto

/-- Every step is one of the steps `Stepped` lists. -/
theorem step_stepped {p q : Parser} {e : Event} (h : step p = some (.ok (e, q))) :
    Stepped p e q := by
  obtain ⟨w, hw, hspaces⟩ := took_spaces p
  unfold step at h
  dsimp only at h
  have hto := tookTo_of_took hw
  cases hn : p.spaces.next with
  | done => simp [hn] at h
  | value closes =>
    simp only [hn, Option.some.injEq] at h
    rw [← hw.next, hn] at hto
    exact valueStep_stepped hto (.here (hw.next.symm.trans hn) hspaces)
      (fun hc => ⟨hc ▸ hw.next.symm.trans hn, hspaces⟩) h
  | key closes =>
    simp only [hn, Option.some.injEq] at h
    rw [← hw.next, hn] at hto
    exact keyStep_stepped hto (.here (hw.next.symm.trans hn) hspaces)
      (fun hc => ⟨hc ▸ hw.next.symm.trans hn, hspaces⟩) h
  | after =>
    simp only [hn] at h
    cases ho : p.spaces.objects with
    | nil =>
      simp only [ho] at h
      split_ifs at h
      simp at h
    | cons object objects =>
      simp only [ho, Option.some.injEq] at h
      exact insideStep_stepped (hw.next.symm.trans hn) (hw.objects.symm.trans ho) hw hspaces h

theorem writes_ne_nil {d : Doc} {b : Bytes} (h : Writes d b) : b ≠ [] := by
  cases h with
  | null | true | false => decide
  | number hn =>
    obtain ⟨m, w, f, e, rfl, -, hw, -, -⟩ := hn
    rcases hw with rfl | ⟨d, ds, rfl, -⟩ <;> simp
  | _ => simp [quoted]

theorem Stepped.progress {p q : Parser} {e : Event} (h : Stepped p e q) :
    q.rest.length < p.rest.length := by
  have hpos : ∀ {taken : Bytes} {next : Next} {objects : List Bool},
      taken ≠ [] → TookTo p taken next objects q → q.rest.length < p.rest.length := by
    intro taken next objects hne hto
    have := List.length_pos_iff.mpr hne
    rw [hto.rest, List.length_append]
    omega
  cases h with
  | scalar _ hw _ _ hto => exact hpos (by simp [writes_ne_nil hw]) hto
  | beginArray _ _ hto => exact hpos (by simp) hto
  | beginObject _ _ hto => exact hpos (by simp) hto
  | key _ _ _ hto => exact hpos (by simp) hto
  | endArray _ _ hto => exact hpos (by simp) hto
  | endObject _ _ hto => exact hpos (by simp) hto

/-- The loop of `read`: the events handed over, and how the loop ended. -/
def readFrom (p : Parser) : List Event × Except Malformed Unit :=
  match _h : step p with
  | none => ([], .ok ())
  | some (.error malformed) => ([], .error malformed)
  | some (.ok (event, q)) =>
    let (events, answer) := readFrom q
    (event :: events, answer)
termination_by p.rest.length
decreasing_by exact (step_stepped _h).progress

def read (bytes : Bytes) : List Event × Except Malformed Unit := readFrom (.new bytes)

end SoutherNative.JsonSyntax
