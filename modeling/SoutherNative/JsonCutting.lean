import SoutherNative.JsonRefusing

set_option autoImplicit false

/-!
# Bytes that stop before the document was whole

Of such bytes a refusal carries their length, except where the end falls inside the four digits of
an escape or between the backslash and the `u` of a low half: there it carries how much had been
read before them. A reading of the bytes is followed beside the reading of the whole document.
-/
namespace SoutherNative.JsonCutting
open Utf8 JsonScanner JsonScanner.Parser JsonGrammar JsonSyntax JsonAccepting JsonRefusing

def cutShort : Bool → Bytes → ℕ
  | _, [] => 0
  | false, b :: rest => cutShort (b = byte '"') rest
  | true, b :: rest =>
    if b = byte '"' then cutShort false rest
    else if b = byte '\\' then
      match rest with
      | [] => 0
      | escaped :: rest =>
        if escaped = byte 'u' then
          match rest with
          | a :: b :: c :: d :: rest =>
            if (JsonScanner.hex4 [a, b, c, d]).any isHigh ∧ rest = [byte '\\'] then 1
            else cutShort true rest
          | digits => digits.length
        else cutShort true rest
    else cutShort true rest

section Lexing

theorem cutShort_plain {w : Bytes} (hw : ∀ b ∈ w, b ≠ byte '"') (rest : Bytes) :
    cutShort false (w ++ rest) = cutShort false rest := by
  induction w with
  | nil => rfl
  | cons b w ih =>
    have hb := hw b (by simp)
    rw [List.cons_append, cutShort, decide_eq_false hb]
    exact ih fun x hx => hw x (by simp [hx])

theorem cutShort_all_plain {w : Bytes} (hw : ∀ b ∈ w, b ≠ byte '"') : cutShort false w = 0 := by
  have h := cutShort_plain hw []
  rwa [List.append_nil] at h

theorem cutShort_quote (rest : Bytes) :
    cutShort false (byte '"' :: rest) = cutShort true rest := rfl

theorem cutShort_closing (rest : Bytes) :
    cutShort true (byte '"' :: rest) = cutShort false rest := by
  rw [cutShort.eq_def]
  exact if_pos rfl

theorem cutShort_bare {b : UInt8} (hq : b ≠ byte '"') (hs : b ≠ byte '\\') (rest : Bytes) :
    cutShort true (b :: rest) = cutShort true rest := by
  rw [cutShort.eq_def]
  exact (if_neg hq).trans (if_neg hs)

theorem cutShort_bares {w : Bytes} (hw : ∀ b ∈ w, b ≠ byte '"' ∧ b ≠ byte '\\') (rest : Bytes) :
    cutShort true (w ++ rest) = cutShort true rest := by
  induction w with
  | nil => rfl
  | cons b w ih =>
    obtain ⟨hq, hs⟩ := hw b (by simp)
    rw [List.cons_append, cutShort_bare hq hs]
    exact ih fun x hx => hw x (by simp [hx])

theorem cutShort_escaped {b : UInt8} (hb : b ≠ byte 'u') (rest : Bytes) :
    cutShort true (byte '\\' :: b :: rest) = cutShort true rest := by
  rw [cutShort.eq_def]
  exact (if_neg (by decide)).trans ((if_pos rfl).trans (if_neg hb))

theorem cutShort_digits {digits : Bytes} (h : digits.length < 4) :
    cutShort true (byte '\\' :: byte 'u' :: digits) = digits.length := by
  rw [cutShort.eq_def]
  refine (if_neg (by decide)).trans ((if_pos rfl).trans ((if_pos rfl).trans ?_))
  match digits with
  | [] | [_] | [_, _] | [_, _, _] => rfl
  | _ :: _ :: _ :: _ :: _ =>
    simp only [List.length_cons] at h
    omega

theorem cutShort_four (a b c d : UInt8) (rest : Bytes) :
    cutShort true (byte '\\' :: byte 'u' :: a :: b :: c :: d :: rest) =
      if (JsonScanner.hex4 [a, b, c, d]).any isHigh ∧ rest = [byte '\\'] then 1
      else cutShort true rest := by
  rw [cutShort.eq_def]
  exact (if_neg (by decide)).trans ((if_pos rfl).trans (if_pos rfl))

theorem not_high_of_low {point : ℕ} (h : isLow point = true) : isHigh point = false := by
  simp only [isLow, isHigh, Bool.and_eq_true, Bool.and_eq_false_iff, decide_eq_true_eq,
    decide_eq_false_iff_not] at h ⊢
  omega

theorem cutShort_escape {w : Bytes} {c : Char} (h : Escape w c) (rest : Bytes) :
    cutShort true (w ++ rest) = cutShort true rest := by
  cases h with
  | unit hv hhigh =>
    refine (cutShort_four _ _ _ _ rest).trans (if_neg ?_)
    rw [hv]
    simp [hhigh]
  | pair hv hv' hhigh hlow =>
    refine (cutShort_four _ _ _ _ _).trans ((if_neg ?_).trans ?_)
    · simp
    · refine (cutShort_four _ _ _ _ rest).trans (if_neg ?_)
      rw [hv']
      simp [not_high_of_low hlow]
  | _ => exact cutShort_escaped (by decide) rest

theorem cutShort_spells {w : Bytes} {cs : List Char} (h : Spells w cs) (rest : Bytes) :
    cutShort true (w ++ rest) = cutShort true rest := by
  induction h with
  | nil => rfl
  | cons hpiece _ ih =>
    rw [List.append_assoc]
    cases hpiece with
    | escape he => exact (cutShort_escape he _).trans ih
    | plain _ hc hq hs =>
      refine (cutShort_bares (fun b hb => ?_) _).trans ih
      have hbare := piece_plains hc hq hs b hb
      exact ⟨hbare.1, hbare.2.1⟩

theorem cutShort_quoted {text : Text} (h : IsText text.written) (rest : Bytes) :
    cutShort false (quoted text ++ rest) = cutShort false rest := by
  obtain ⟨cs, hcs⟩ := h
  have hsplit : quoted text ++ rest = byte '"' :: (text.written ++ (byte '"' :: rest)) := by
    simp [quoted]
  rw [hsplit, cutShort_quote, cutShort_spells hcs, cutShort_closing]

theorem spaces_plain {w : Bytes} (h : Spaces w) : ∀ b ∈ w, b ≠ byte '"' := by
  rintro b hb rfl
  exact absurd (h _ hb) (by decide)

theorem digits_plain {ds : Bytes} (h : ∀ b ∈ ds, isDigit b = true) : ∀ b ∈ ds, b ≠ byte '"' := by
  rintro b hb rfl
  exact absurd (h _ hb) (by decide)

theorem number_plain {n : Bytes} (h : IsNumber n) : ∀ b ∈ n, b ≠ byte '"' := by
  obtain ⟨m, w, f, e, rfl, hm, hw, hf, he⟩ := h
  have hminus : ∀ b ∈ m, b ≠ byte '"' := by
    rcases hm with rfl | rfl
    · nofun
    · exact List.forall_mem_singleton.mpr (by decide)
  have hwhole : ∀ b ∈ w, b ≠ byte '"' := by
    rcases hw with rfl | ⟨d, ds, rfl, hd, -, hall⟩
    · exact List.forall_mem_singleton.mpr (by decide)
    · exact digits_plain fun b hb => (List.mem_cons.mp hb).elim (fun h => h ▸ hd) (hall b)
  have hfraction : ∀ b ∈ f, b ≠ byte '"' := by
    rcases hf with rfl | ⟨ds, rfl, -, hall⟩
    · nofun
    · exact List.forall_mem_cons.mpr ⟨by decide, digits_plain hall⟩
  have hexponent : ∀ b ∈ e, b ≠ byte '"' := by
    rcases he with rfl | ⟨mark, sign, ds, rfl, hmark, hsign, -, hall⟩
    · nofun
    · have hsigned : ∀ b ∈ sign, b ≠ byte '"' := by
        rcases hsign with rfl | rfl | rfl
        · nofun
        · exact List.forall_mem_singleton.mpr (by decide)
        · exact List.forall_mem_singleton.mpr (by decide)
      refine List.forall_mem_cons.mpr ⟨by rcases hmark with rfl | rfl <;> decide, ?_⟩
      exact List.forall_mem_append.mpr ⟨hsigned, digits_plain hall⟩
  simp only [List.forall_mem_append]
  exact ⟨⟨⟨hminus, hwhole⟩, hfraction⟩, hexponent⟩

end Lexing

def more (p : Parser) (ms : Bytes) : Parser := { p with rest := p.rest ++ ms }

section Numbers

variable {ms : Bytes}

theorem peek_more {p : Parser} (h : p.rest ≠ []) : (more p ms).peek = p.peek := by
  rw [peek, peek, more, List.head?_append_of_ne_nil _ h]

theorem advance_more {p : Parser} {n : ℕ} (h : n ≤ p.rest.length) :
    (more p ms).advance n = more (p.advance n) ms := by
  rw [advance, advance, more, more, List.drop_append_of_le_length h]

theorem advance_one_more {p : Parser} (h : p.rest ≠ []) :
    (more p ms).advance 1 = more (p.advance 1) ms :=
  advance_more (List.length_pos_iff.mpr h)

theorem rest_ne_nil {p : Parser} {b : UInt8} (h : p.peek = some b) : p.rest ≠ [] := by
  intro hrest
  rw [peek, hrest] at h
  cases h

theorem peek_none {p : Parser} (h : p.rest = []) : p.peek = none := by
  rw [peek, h]
  rfl

theorem finish_nil {p : Parser} (h : p.rest = []) : finish p = p.offset := by
  rw [finish, h]
  rfl

theorem took_more {p q : Parser} {w : Bytes} (h : Took p w q) :
    Took (more p ms) w (more q ms) := by
  refine ⟨?_, h.offset, h.next, h.objects⟩
  rw [JsonCutting.more, JsonCutting.more, h.rest, List.append_assoc]

inductive Cut (ms : Bytes) (at_end : ℕ) : Except Malformed Parser → Parser → Prop
  | same (q : Parser) : Cut ms at_end (.ok q) (JsonCutting.more q ms)
  | all {q : Parser} (q' : Parser) : q.rest = [] → Cut ms at_end (.ok q) q'
  | short {q' : Parser} : q'.rest.length ≤ ms.length → Cut ms at_end (.error ⟨at_end⟩) q'

theorem fraction_done {p : Parser} (h : p.rest = []) : p.fraction = .ok p := by
  rw [fraction, peek_none h, if_neg (by simp)]

theorem exponent_done {p : Parser} (h : p.rest = []) : p.exponent = .ok p := by
  rw [exponent, peek_none h, if_neg (by simp)]

theorem digits_none {p : Parser} (h : p.rest = []) : p.digits = .error ⟨finish p⟩ := by
  rw [digits, h, finish_nil h]
  exact if_pos rfl

theorem digits_cut {p q' : Parser} (h : (more p ms).digits = .ok q') :
    Cut ms (finish p) p.digits q' := by
  obtain ⟨ds, htook, -⟩ := took_digits h
  by_cases hall : (p.rest.takeWhile isDigit).length = p.rest.length
  · by_cases hempty : p.rest = []
    · rw [digits_none hempty]
      apply Cut.short
      have hle := htook.length_le
      rwa [more, hempty] at hle
    · have hpos := List.length_pos_iff.mpr hempty
      rw [digits, hall, if_neg]
      · apply Cut.all
        exact List.drop_of_length_le (Nat.le_refl _)
      · simp only [advance]
        omega
  · have hsame : (more p ms).rest.takeWhile isDigit = p.rest.takeWhile isDigit := by
      rw [more, List.takeWhile_append, if_neg hall]
    have hle : (p.rest.takeWhile isDigit).length ≤ p.rest.length :=
      (List.takeWhile_prefix _).length_le
    rw [digits] at h ⊢
    rw [hsame, advance_more hle] at h
    split_ifs at h with hz
    cases h
    rw [if_neg (by exact hz)]
    exact Cut.same _

theorem whole_cut {p q' : Parser} (h : (more p ms).whole = .ok q') :
    Cut ms (finish p) p.whole q' := by
  obtain ⟨w, htook, -⟩ := took_whole h
  by_cases hempty : p.rest = []
  · rw [whole, peek_none hempty, ← finish_nil hempty]
    apply Cut.short
    have hle := htook.length_le
    rwa [more, hempty] at hle
  · rw [whole, peek_more hempty] at h
    rw [whole]
    cases hk : p.peek with
    | none =>
      rw [hk] at h
      cases h
    | some b =>
      simp only [hk] at h ⊢
      split_ifs at h ⊢
      · rw [advance_one_more hempty] at h
        cases h
        exact Cut.same _
      · exact digits_cut h

theorem fraction_cut {p q' : Parser} (h : (more p ms).fraction = .ok q') :
    Cut ms (finish p) p.fraction q' := by
  by_cases hempty : p.rest = []
  · rw [fraction_done hempty]
    exact Cut.all q' hempty
  · rw [fraction, peek_more hempty] at h
    rw [fraction]
    split_ifs at h ⊢ with hk
    · rw [advance_one_more hempty] at h
      rw [← advance_finish hk]
      exact digits_cut h
    · cases h
      exact Cut.same p

theorem exponent_cut {p q' : Parser} (h : (more p ms).exponent = .ok q') :
    Cut ms (finish p) p.exponent q' := by
  by_cases hempty : p.rest = []
  · rw [exponent_done hempty]
    exact Cut.all q' hempty
  · by_cases hmark : p.peek = some (byte 'e') ∨ p.peek = some (byte 'E')
    · have hone : finish (p.advance 1) = finish p := hmark.elim advance_finish advance_finish
      obtain ⟨e, htook, -⟩ := took_exponent h
      rw [exponent, peek_more hempty, if_pos hmark] at h
      rw [exponent, if_pos hmark]
      dsimp only at h ⊢
      rw [advance_one_more hempty] at h
      rw [← hone]
      by_cases hafter : (p.advance 1).rest = []
      · rw [peek_none hafter, if_neg (by simp), digits_none hafter]
        apply Cut.short
        split_ifs at h
        · obtain ⟨ds, ht, -⟩ := took_digits h
          have hle := ht.length_le
          rw [more, hafter] at hle
          refine hle.trans ?_
          simp [advance]
        · obtain ⟨ds, ht, -⟩ := took_digits h
          have hle := ht.length_le
          rwa [more, hafter] at hle
      · rw [peek_more hafter] at h
        split_ifs at h ⊢ with hsign
        · rw [advance_one_more hafter] at h
          have htwo : finish ((p.advance 1).advance 1) = finish (p.advance 1) :=
            hsign.elim advance_finish advance_finish
          rw [← htwo]
          exact digits_cut h
        · exact digits_cut h
    · rw [exponent, peek_more hempty, if_neg hmark] at h
      rw [exponent, if_neg hmark]
      cases h
      exact Cut.same p

theorem number_cut {p q' : Parser} (h : (more p ms).number = .ok q') :
    Cut ms (finish p) p.number q' := by
  have hall : q'.rest.length ≤ (more p ms).rest.length := by
    obtain ⟨n, ht, -⟩ := took_number h
    exact ht.length_le
  obtain ⟨minus, hminus, -⟩ := took_minus p
  rw [number] at h ⊢
  by_cases hempty : p.rest = []
  · have hstop : p.whole = .error ⟨finish p⟩ := by
      rw [whole, peek_none hempty, ← finish_nil hempty]
    rw [peek_none hempty, if_neg (by simp), hstop]
    apply Cut.short
    rwa [more, hempty] at hall
  · have hsame : (if (more p ms).peek = some (byte '-') then (more p ms).advance 1 else more p ms) =
        more (if p.peek = some (byte '-') then p.advance 1 else p) ms := by
      rw [peek_more hempty, advance_one_more hempty]
      split_ifs <;> rfl
    rw [hsame] at h
    generalize (if p.peek = some (byte '-') then p.advance 1 else p) = r at h hminus
    rw [← took_finish hminus]
    obtain ⟨s', hs', h⟩ := bind_eq_ok.mp h
    have hwhole := whole_cut hs'
    generalize hs : r.whole = s at hwhole
    cases hwhole with
    | short hle =>
      apply Cut.short
      obtain ⟨t', ht', h⟩ := bind_eq_ok.mp h
      obtain ⟨f, hf, -⟩ := took_fraction ht'
      obtain ⟨e, he, -⟩ := took_exponent h
      exact (he.length_le.trans hf.length_le).trans hle
    | @all s _ hdone =>
      have hrest : (Except.ok s >>= fun p => p.fraction >>= fun p => p.exponent) = .ok s := by
        change (s.fraction >>= fun p => p.exponent) = .ok s
        rw [fraction_done hdone]
        exact exponent_done hdone
      rw [hrest]
      exact Cut.all q' hdone
    | same s =>
      obtain ⟨w, hw, -⟩ := took_whole hs
      rw [← took_finish hw]
      change Cut ms (finish s) (s.fraction >>= fun p => p.exponent) q'
      obtain ⟨t', ht', h⟩ := bind_eq_ok.mp h
      have hfraction := fraction_cut ht'
      generalize ht : s.fraction = t at hfraction
      cases hfraction with
      | short hle =>
        apply Cut.short
        obtain ⟨e, he, -⟩ := took_exponent h
        exact he.length_le.trans hle
      | @all t _ hdone =>
        change Cut ms (finish s) t.exponent q'
        rw [exponent_done hdone]
        exact Cut.all q' hdone
      | same t =>
        obtain ⟨f, hf, -⟩ := took_fraction ht
        rw [← took_finish hf]
        exact exponent_cut h

end Numbers

section Strings

variable {ms : Bytes}

theorem keyword_cut {p q' : Parser} {w : Bytes} {e e' : Event}
    (h : (more p ms).keyword w e = .ok (e', q')) :
    (∃ q, p.keyword w e = .ok (e', q) ∧ q' = more q ms) ∨
      (p.keyword w e = .error ⟨finish p⟩ ∧ q'.rest.length ≤ ms.length) := by
  induction w generalizing p with
  | nil =>
    cases h
    exact .inl ⟨_, rfl, rfl⟩
  | cons b w ih =>
    by_cases hempty : p.rest = []
    · obtain ⟨-, r, ht, rfl⟩ := took_keyword h
      have hle := ht.length_le
      rw [more, hempty] at hle
      refine .inr ⟨?_, hle⟩
      rw [keyword, peek_none hempty, if_neg (by simp), finish_nil hempty]
    · rw [keyword, peek_more hempty] at h
      rw [keyword]
      split_ifs at h ⊢ with hk
      rw [advance_one_more hempty] at h
      rw [← advance_finish hk]
      exact ih h

inductive Ended (ms : Bytes) (p : Parser) (left : ℕ) : Except Malformed Parser → Parser → Prop
  | same (q : Parser) : Ended ms p left (.ok q) (more q ms)
  | short {m : Malformed} (q' : Parser) : m.offset + left = finish p →
      Ended ms p left (.error m) q'

theorem hex4_none {p : Parser} (h : p.rest.length < 4) : p.hex4 = .error ⟨p.offset⟩ := by
  rw [Parser.hex4]
  rcases hr : p.rest with _ | ⟨_, _ | ⟨_, _ | ⟨_, _ | ⟨_, _⟩⟩⟩⟩
  · rfl
  · rfl
  · rfl
  · rfl
  · rw [hr] at h
    simp only [List.length_cons] at h
    omega

theorem hex4_more {p q' : Parser} {point : ℕ} (h : 4 ≤ p.rest.length)
    (hx : (more p ms).hex4 = .ok (point, q')) :
    p.hex4 = .ok (point, p.advance 4) ∧ q' = more (p.advance 4) ms := by
  have hsame : JsonScanner.hex4 (more p ms).rest = JsonScanner.hex4 p.rest := by
    rw [more]
    rcases hr : p.rest with _ | ⟨a, _ | ⟨b, _ | ⟨c, _ | ⟨d, rest⟩⟩⟩⟩
    case cons.cons.cons.cons => rfl
    all_goals
      rw [hr] at h
      simp at h
  rw [Parser.hex4, hsame, advance_more h] at hx
  rw [Parser.hex4]
  split at hx
  · cases hx
  · rename_i point' hpoint
    cases hx
    exact ⟨rfl, rfl⟩

theorem low_cut {p q' : Parser} {lowAt : ℕ}
    (h : ((more p ms).hex4 >>= fun (low, r) =>
      if isLow low then .ok r else .error ⟨lowAt⟩) = .ok q') :
    Ended ms p (cutShort true (byte '\\' :: byte 'u' :: p.rest))
      (p.hex4 >>= fun (low, r) => if isLow low then .ok r else .error ⟨lowAt⟩) q' := by
  by_cases hfew : p.rest.length < 4
  · rw [hex4_none hfew]
    apply Ended.short
    rw [cutShort_digits hfew, finish]
  · obtain ⟨⟨low, r⟩, hr, h⟩ := bind_eq_ok.mp h
    obtain ⟨hlow, rfl⟩ := hex4_more (by omega) hr
    rw [hlow]
    dsimp only at h
    split_ifs at h with hl
    cases h
    change Ended ms p _ (if isLow low = true then .ok (p.advance 4) else .error ⟨lowAt⟩) _
    rw [if_pos hl]
    exact Ended.same _

theorem Ended.of_finish {p r : Parser} {left left' : ℕ} {x : Except Malformed Parser} {q' : Parser}
    (h : Ended ms r left x q') (hf : finish r = finish p) (hl : left = left') :
    Ended ms p left' x q' := by
  cases h with
  | same q => exact Ended.same q
  | short _ hm => exact Ended.short q' (hl ▸ hf ▸ hm)

theorem high_cut {r q' : Parser}
    (h : (if (more r ms).rest.take 2 ≠ [byte '\\', byte 'u'] then .error ⟨(more r ms).offset⟩
      else ((more r ms).advance 2).hex4 >>= fun (low, q) =>
        if isLow low then .ok q else .error ⟨((more r ms).advance 2).offset⟩) = .ok q') :
    Ended ms r (if r.rest = [byte '\\'] then 1 else cutShort true r.rest)
      (if r.rest.take 2 ≠ [byte '\\', byte 'u'] then .error ⟨r.offset⟩
      else (r.advance 2).hex4 >>= fun (low, q) =>
        if isLow low then .ok q else .error ⟨(r.advance 2).offset⟩) q' := by
  by_cases hmark : r.rest.take 2 = [byte '\\', byte 'u']
  · have hpair := took_pair hmark
    have hsplit : r.rest = byte '\\' :: byte 'u' :: (r.advance 2).rest := hpair.rest
    have htwo : 2 ≤ r.rest.length := by
      rw [hsplit]
      simp
    have hmore : ¬(more r ms).rest.take 2 ≠ [byte '\\', byte 'u'] := by
      rw [more, List.take_append_of_le_length htwo, hmark]
      simp
    have hlone : ¬r.rest = [byte '\\'] := by
      rw [hsplit]
      simp
    rw [if_neg hmore, advance_more htwo] at h
    rw [if_neg (not_not.mpr hmark), if_neg hlone]
    exact (low_cut h).of_finish (took_finish hpair)
      (congrArg (cutShort true) hsplit.symm)
  · rw [if_pos hmark]
    split_ifs at h with hmore
    have hmarked := not_not.mp hmore
    rw [more] at hmarked
    apply Ended.short
    rw [finish]
    rcases hr : r.rest with _ | ⟨x, _ | ⟨y, rest⟩⟩
    · rw [if_neg (by simp), cutShort, List.length_nil]
    · rw [hr, List.cons_append] at hmarked
      obtain rfl : x = byte '\\' := (List.cons.inj hmarked).1
      rw [if_pos rfl, List.length_singleton]
    · rw [hr] at hmarked hmark
      exact absurd hmarked hmark

theorem unicode_cut {p q' : Parser} {backslash : ℕ}
    (h : ((more p ms).hex4 >>= fun (point, p) =>
      if isHigh point then
        if p.rest.take 2 ≠ [byte '\\', byte 'u'] then .error ⟨p.offset⟩
        else
          (p.advance 2).hex4 >>= fun (low, r) =>
            if isLow low then .ok r else .error ⟨(p.advance 2).offset⟩
      else if isLow point then .error ⟨backslash⟩
      else .ok p) = .ok q') :
    Ended ms p (cutShort true (byte '\\' :: byte 'u' :: p.rest))
      (p.hex4 >>= fun (point, p) =>
      if isHigh point then
        if p.rest.take 2 ≠ [byte '\\', byte 'u'] then .error ⟨p.offset⟩
        else
          (p.advance 2).hex4 >>= fun (low, r) =>
            if isLow low then .ok r else .error ⟨(p.advance 2).offset⟩
      else if isLow point then .error ⟨backslash⟩
      else .ok p) q' := by
  by_cases hfew : p.rest.length < 4
  · rw [hex4_none hfew]
    apply Ended.short
    rw [cutShort_digits hfew, finish]
  · obtain ⟨⟨point, r⟩, hr, h⟩ := bind_eq_ok.mp h
    obtain ⟨hpoint, rfl⟩ := hex4_more (by omega) hr
    obtain ⟨a, b, c, d, htook, hdigits⟩ := took_hex4 hpoint
    rw [hpoint]
    have hrest : p.rest = a :: b :: c :: d :: (p.advance 4).rest := htook.rest
    have hfinish := took_finish htook
    rw [hrest, cutShort_four, hdigits]
    generalize p.advance 4 = r at h hfinish hrest
    change Ended ms p _ (if isHigh point then _ else if isLow point then _ else _) q'
    dsimp only at h
    cases hhigh : isHigh point with
    | false =>
      cases hlow : isLow point with
      | true =>
        rw [hhigh, hlow] at h
        cases h
      | false =>
        rw [hhigh, hlow] at h
        cases h
        simp only [Option.any_some, hhigh, Bool.false_eq_true, false_and, ↓reduceIte]
        exact Ended.same r
    | true =>
      simp only [hhigh, ↓reduceIte] at h
      simp only [Option.any_some, hhigh, ↓reduceIte, true_and]
      exact (high_cut h).of_finish hfinish rfl

theorem escape_cut {p q' : Parser} (hp : p.peek = some (byte '\\'))
    (h : (more p ms).escape = .ok q') :
    Ended ms p (cutShort true p.rest) p.escape q' := by
  have hone := took_peek hp
  have hrest : p.rest = byte '\\' :: (p.advance 1).rest := hone.rest
  have hfinish := took_finish hone
  rw [escape] at h ⊢
  rw [advance_one_more (rest_ne_nil hp)] at h
  rw [hrest]
  have hplace : (more p ms).offset = p.offset := rfl
  rw [hplace] at h
  generalize p.advance 1 = r at h hfinish
  by_cases hempty : r.rest = []
  · dsimp only
    rw [peek_none hempty, hempty]
    apply Ended.short
    rw [← hfinish, finish_nil hempty]
    rfl
  · dsimp only at h ⊢
    rw [peek_more hempty] at h
    cases hk : r.peek with
    | none =>
      rw [hk] at h
      cases h
    | some b =>
      have htwo := took_peek hk
      have hrest' : r.rest = b :: (r.advance 1).rest := htwo.rest
      rw [hk] at h
      dsimp only at h ⊢
      rw [advance_one_more hempty] at h
      split_ifs at h ⊢ with hplain hu
      · cases h
        exact Ended.same _
      · rw [hrest', hu]
        exact (unicode_cut h).of_finish ((took_finish htwo).trans hfinish) rfl

theorem scan_backslash {p : Parser} (hp : p.peek = some (byte '\\')) :
    scan p = p.escape >>= scan := by
  have hq : byte '\\' ≠ byte '"' := by decide
  conv_lhs => rw [scan]
  split
  · rename_i hn
    simp [hp] at hn
  · rename_i b hb
    rw [hp, Option.some.injEq] at hb
    subst hb
    simp only [hq, ↓reduceIte, ↓reduceDIte]
    split
    · rename_i hm
      rw [hm]
      rfl
    · rename_i q hm
      rw [hm]
      rfl

theorem scan_control {p : Parser} {b : UInt8} (hp : p.peek = some b) (hq : b ≠ byte '"')
    (hs : b ≠ byte '\\') (hle : b ≤ 0x1f) : scan p = .error ⟨p.offset⟩ := by
  rw [scan]
  split
  · rfl
  · rename_i x hx
    rw [hp, Option.some.injEq] at hx
    subst hx
    simp only [hq, hs, hle, ↓reduceIte, ↓reduceDIte]

theorem scan_cut {p q' : Parser} (h : scan (more p ms) = .ok q') :
    Ended ms p (cutShort true p.rest) (scan p) q' := by
  fun_induction scan p with
  | case1 p hp =>
    have hempty : p.rest = [] := List.head?_eq_none_iff.mp hp
    rw [hempty]
    apply Ended.short
    rw [finish_nil hempty]
    rfl
  | case2 p hp =>
    have hmore : (more p ms).rest = byte '"' :: ((p.advance 1).rest ++ ms) := by
      rw [more, (took_peek hp).rest]
      rfl
    rw [scan_quote hmore] at h
    cases h
    exact Ended.same p
  | case3 p malformed he hp hq =>
    rw [scan_backslash ((peek_more (rest_ne_nil hp)).trans hp)] at h
    obtain ⟨r', hr', -⟩ := bind_eq_ok.mp h
    have hescape := escape_cut hp hr'
    rw [he] at hescape
    cases hescape with
    | short _ hm => exact Ended.short q' hm
  | case4 p r he hp hq ih =>
    rw [scan_backslash ((peek_more (rest_ne_nil hp)).trans hp)] at h
    obtain ⟨r', hr', h⟩ := bind_eq_ok.mp h
    have hescape := escape_cut hp hr'
    rw [he] at hescape
    cases hescape with
    | same =>
      obtain ⟨w, c, ht, hc⟩ := took_escape hp he
      rw [ht.rest, cutShort_escape hc]
      exact (ih h).of_finish (took_finish ht) rfl
  | case5 p b hp hq hb hle =>
    rw [scan_control ((peek_more (rest_ne_nil hp)).trans hp) hq hb hle] at h
    cases h
  | case6 p b hp hq hb hle ih =>
    have htook := took_peek hp
    have hmore : (more p ms).rest = b :: ((p.advance 1).rest ++ ms) := by
      rw [more, htook.rest]
      rfl
    rw [scan_plain hq hb hle hmore, advance_one_more (rest_ne_nil hp)] at h
    have hrest : p.rest = b :: (p.advance 1).rest := htook.rest
    rw [hrest, cutShort_bare hq hb]
    exact (ih h).of_finish (took_finish htook) rfl

inductive CutStep (ms : Bytes) (p : Parser) :
    Except Malformed (Event × Parser) → Event → Parser → Prop
  | same (e : Event) (q : Parser) : CutStep ms p (.ok (e, q)) e (more q ms)
  | all {e : Event} {q : Parser} (e' : Event) (q' : Parser) : q.rest = [] → q.next = .after →
      finish q = finish p → cutShort false p.rest = 0 → CutStep ms p (.ok (e, q)) e' q'
  | short {m : Malformed} (e' : Event) (q' : Parser) :
      m.offset + cutShort false p.rest = finish p → CutStep ms p (.error m) e' q'

theorem string_cut {p q' : Parser} {text : Text} (hp : p.peek = some (byte '"'))
    (h : string (more p ms) = .ok (text, q')) :
    (∃ q, string p = .ok (text, q) ∧ q' = more q ms) ∨
      ∃ m, string p = .error m ∧ m.offset + cutShort false p.rest = finish p := by
  have hone := took_peek hp
  have hrest : p.rest = byte '"' :: (p.advance 1).rest := hone.rest
  rw [string] at h ⊢
  rw [advance_one_more (rest_ne_nil hp)] at h
  dsimp only at h ⊢
  rw [hrest, cutShort_quote, ← took_finish hone]
  generalize p.advance 1 = start at h
  obtain ⟨r', hr', h⟩ := bind_eq_ok.mp h
  have hscan := scan_cut hr'
  generalize hr : scan start = x at hscan
  cases hscan with
  | short _ hm => exact .inr ⟨_, rfl, hm⟩
  | same r =>
    obtain ⟨w, ht, -, hquote⟩ := took_scan hr
    rw [(took_more ht).upTo, advance_one_more (rest_ne_nil hquote)] at h
    rw [show (more start ms).offset = start.offset from rfl] at h
    refine .inl ⟨r.advance 1, ?_⟩
    simp only [bind, Except.bind, ht.upTo]
    cases hw : fromUtf8 w with
    | error valid =>
      rw [hw] at h
      cases h
    | ok cs =>
      rw [hw] at h
      cases h
      exact ⟨rfl, rfl⟩

end Strings

section Steps

variable {ms : Bytes}

theorem all_plain {p q' : Parser} {w : Bytes} (h : Took (more p ms) w q')
    (hle : q'.rest.length ≤ ms.length) (hw : ∀ b ∈ w, b ≠ byte '"') :
    cutShort false p.rest = 0 := by
  have hsplit : p.rest ++ ms = w ++ q'.rest := h.rest
  have hlength := congrArg List.length hsplit
  rw [List.length_append, List.length_append] at hlength
  have hbegins : p.rest <+: w := by
    apply List.prefix_of_prefix_length_le (List.prefix_append p.rest ms)
    · rw [hsplit]
      exact List.prefix_append w q'.rest
    · omega
  exact cutShort_all_plain fun b hb => hw b (hbegins.subset hb)

theorem keyword_step_cut {p q' : Parser} {w : Bytes} {e e' : Event}
    (hw : ∀ b ∈ w, b ≠ byte '"') (h : (more p ms).keyword w e = .ok (e', q')) :
    CutStep ms p (p.keyword w e) e' q' := by
  rcases keyword_cut h with ⟨q, hq, rfl⟩ | ⟨hq, hle⟩
  · rw [hq]
    exact CutStep.same e' q
  · rw [hq]
    apply CutStep.short
    obtain ⟨-, r, ht, rfl⟩ := took_keyword h
    rw [all_plain ht hle hw]
    rfl

theorem open_more {p q' : Parser} {object : Bool} (hne : p.rest ≠ [])
    (h : (more p ms).open object = .ok q') : ∃ q, p.open object = .ok q ∧ q' = more q ms := by
  rw [Parser.open, advance_one_more hne] at h
  rw [Parser.open]
  have hdepth : (more p ms).depth = p.depth := rfl
  rw [hdepth] at h
  split_ifs at h ⊢ with hdeep
  · cases h
    exact ⟨_, rfl, rfl⟩
  · cases h
    exact ⟨_, rfl, rfl⟩

theorem number_step_cut {p q' : Parser} {e' : Event}
    (h : ((more p ms).number >>= fun q =>
      (pure (.number ((more p ms).upTo q), q.afterAValue) : Except Malformed (Event × Parser))) =
        .ok (e', q')) :
    CutStep ms p (p.number >>= fun q => pure (.number (p.upTo q), q.afterAValue)) e' q' := by
  obtain ⟨r', hr', h⟩ := bind_eq_ok.mp h
  obtain ⟨n, hn, hnumber⟩ := took_number hr'
  have hcut := number_cut hr'
  generalize hr : p.number = x at hcut
  cases h
  cases hcut with
  | short hle =>
    apply CutStep.short
    rw [all_plain hn hle (number_plain hnumber)]
    rfl
  | @all r _ hdone =>
    obtain ⟨w, hw, hwritten⟩ := took_number hr
    apply CutStep.all
    · exact hdone
    · rfl
    · have hfinish := took_finish hw
      exact hfinish
    · have hrest := hw.rest
      rw [hdone, List.append_nil] at hrest
      rw [hrest]
      exact cutShort_all_plain (number_plain hwritten)
  | same r =>
    obtain ⟨w, hw, -⟩ := took_number hr
    rw [(took_more hw).upTo]
    have hup := hw.upTo
    change CutStep ms p (.ok (.number (p.upTo r), r.afterAValue)) _ _
    rw [hup]
    exact CutStep.same _ _

theorem open_step_cut {p q' : Parser} {object : Bool} {e e' : Event} (hne : p.rest ≠ [])
    (h : ((more p ms).open object >>= fun q => pure (e, q)) = .ok (e', q')) :
    CutStep ms p (p.open object >>= fun q => pure (e, q)) e' q' := by
  obtain ⟨r', hr', h⟩ := bind_eq_ok.mp h
  cases h
  obtain ⟨r, hr, rfl⟩ := open_more hne hr'
  rw [hr]
  exact CutStep.same _ r

theorem value_cut {p q' : Parser} {e' : Event} (hne : p.rest ≠ [])
    (h : value (more p ms) = .ok (e', q')) : CutStep ms p (value p) e' q' := by
  rw [value, peek_more hne] at h
  rw [value]
  cases hk : p.peek with
  | none =>
    rw [hk] at h
    cases h
  | some b =>
    rw [hk] at h
    dsimp only at h ⊢
    split_ifs at h ⊢ with hn ht hf hquote
    · exact keyword_step_cut (by simp [word]; decide) h
    · exact keyword_step_cut (by simp [word]; decide) h
    · exact keyword_step_cut (by simp [word]; decide) h
    · obtain ⟨⟨text, r'⟩, hr', h⟩ := bind_eq_ok.mp h
      cases h
      rcases string_cut (hk.trans (congrArg some hquote)) hr' with ⟨r, hr, rfl⟩ | ⟨m, hm, hplace⟩
      · rw [hr]
        exact CutStep.same (.string text) r.afterAValue
      · rw [hm]
        exact CutStep.short _ _ hplace
    · exact open_step_cut hne h
    · exact open_step_cut hne h
    · exact number_step_cut h

theorem close_more {p : Parser} (hne : p.rest ≠ []) : (more p ms).close = more p.close ms := by
  rw [close, close, advance_one_more hne]
  rfl

theorem valueStep_cut {p q' : Parser} {closes : Bool} {e' : Event} (hne : p.rest ≠ [])
    (h : valueStep (more p ms) closes = .ok (e', q')) :
    CutStep ms p (valueStep p closes) e' q' := by
  rw [valueStep, peek_more hne] at h
  rw [valueStep]
  split_ifs at h ⊢ with hend
  · rw [close_more hne] at h
    cases h
    exact CutStep.same _ _
  · exact value_cut hne h

theorem spaces_more {p : Parser} (h : p.spaces.rest ≠ []) :
    (more p ms).spaces = more p.spaces ms := by
  have hsome : ¬(p.rest.takeWhile isSpace).length = p.rest.length := by
    intro hall
    apply h
    rw [spaces, hall]
    exact List.drop_of_length_le (Nat.le_refl _)
  have hsame : (more p ms).rest.takeWhile isSpace = p.rest.takeWhile isSpace := by
    rw [more, List.takeWhile_append, if_neg hsome]
  rw [spaces, hsame, advance_more (List.takeWhile_prefix _).length_le]
  rfl

theorem spaces_cutShort (p : Parser) : cutShort false p.rest = cutShort false p.spaces.rest := by
  obtain ⟨w, ht, hw⟩ := took_spaces p
  rw [ht.rest, cutShort_plain (spaces_plain hw)]

theorem keyStep_cut {p q' : Parser} {closes : Bool} {e' : Event} (hne : p.rest ≠ [])
    (h : keyStep (more p ms) closes = .ok (e', q')) :
    CutStep ms p (keyStep p closes) e' q' := by
  rw [keyStep, peek_more hne] at h
  rw [keyStep]
  split_ifs at h ⊢ with hend hkey
  · rw [close_more hne] at h
    cases h
    exact CutStep.same _ _
  · obtain ⟨⟨text, r'⟩, hr', h⟩ := bind_eq_ok.mp h
    rcases string_cut hkey hr' with ⟨r, hr, rfl⟩ | ⟨m, hm, hplace⟩
    · obtain ⟨ht, htext⟩ := took_string hkey hr
      rw [hr]
      change CutStep ms p (if r.spaces.peek ≠ some (byte ':') then .error ⟨r.spaces.offset⟩ else
        .ok (.key text, { r.spaces.advance 1 with next := .value false })) e' q'
      dsimp only at h
      by_cases hempty : r.spaces.rest = []
      · rw [peek_none hempty, if_pos (by simp)]
        apply CutStep.short
        rw [ht.rest, cutShort_quoted htext, spaces_cutShort, hempty, ← took_finish ht,
          ← spaces_finish, finish_nil hempty]
        rfl
      · rw [spaces_more hempty, peek_more hempty, advance_one_more hempty] at h
        split_ifs at h ⊢ with hcolon
        cases h
        exact CutStep.same _ { r.spaces.advance 1 with next := .value false }
    · rw [hm]
      exact CutStep.short _ _ hplace

theorem CutStep.of_lead {p r : Parser} {x : Except Malformed (Event × Parser)} {e' : Event}
    {q' : Parser} (h : CutStep ms r x e' q') (hf : finish r = finish p)
    (hl : cutShort false p.rest = cutShort false r.rest) : CutStep ms p x e' q' := by
  cases h with
  | same e q => exact CutStep.same e' q
  | all _ _ hrest hnext hfinish hplain =>
    exact CutStep.all e' q' hrest hnext (hfinish.trans hf) (hl.trans hplain)
  | short _ _ hm => exact CutStep.short e' q' (by rw [hl, hm, hf])

theorem valueStep_none {p : Parser} {closes : Bool} (h : p.rest = []) :
    valueStep p closes = .error ⟨p.offset⟩ := by
  rw [valueStep, peek_none h, if_neg (by simp), value, peek_none h]

theorem keyStep_none {p : Parser} {closes : Bool} (h : p.rest = []) :
    keyStep p closes = .error ⟨p.offset⟩ := by
  rw [keyStep, peek_none h, if_neg (by simp), if_neg (by simp)]

theorem insideStep_none {p : Parser} {object : Bool} (h : p.rest = []) :
    insideStep p object = .error ⟨p.offset⟩ := by
  rw [insideStep, peek_none h, if_neg (by simp), if_neg (by simp), if_neg (by simp)]

theorem after_comma {p : Parser} {next : Next} (hcomma : p.peek = some (byte ',')) :
    let r := Parser.spaces { p.advance 1 with next := next }
    finish r = finish p ∧ cutShort false p.rest = cutShort false r.rest := by
  have htook := took_peek hcomma
  have hone : finish { p.advance 1 with next := next } = finish p := advance_finish hcomma
  refine ⟨(spaces_finish _).trans hone, ?_⟩
  rw [← spaces_cutShort, htook.rest]
  exact cutShort_plain (List.forall_mem_singleton.mpr (by decide)) _

theorem insideStep_cut {p q' : Parser} {object : Bool} {e' : Event} (hne : p.rest ≠ [])
    (h : insideStep (more p ms) object = .ok (e', q')) :
    CutStep ms p (insideStep p object) e' q' := by
  rw [insideStep, peek_more hne, advance_one_more hne, close_more hne] at h
  rw [insideStep]
  by_cases hcomma : p.peek = some (byte ',')
  · rw [if_pos hcomma] at h ⊢
    dsimp only at h ⊢
    generalize hnext : (if object = true then Next.key false else Next.value false) = next at h ⊢
    have hmoved : ({ more (p.advance 1) ms with next := next } : Parser) =
        more { p.advance 1 with next := next } ms := rfl
    rw [hmoved] at h
    obtain ⟨hfinish, hlead⟩ := @after_comma p next hcomma
    by_cases hempty : (Parser.spaces { p.advance 1 with next := next }).rest = []
    · rw [keyStep_none hempty, valueStep_none hempty, ite_self]
      apply CutStep.short
      rw [hlead, hempty, ← hfinish, finish_nil hempty]
      rfl
    · rw [spaces_more hempty] at h
      split_ifs at h ⊢ with hobject
      · exact (keyStep_cut hempty h).of_lead hfinish hlead
      · exact (valueStep_cut hempty h).of_lead hfinish hlead
  · rw [if_neg hcomma] at h ⊢
    split_ifs at h ⊢
    · cases h
      exact CutStep.same _ _
    · cases h
      exact CutStep.same _ _

theorem step_none {p : Parser} (h : p.spaces.rest = []) :
    step p = none ∨ step p = some (.error ⟨finish p⟩) := by
  rw [step, ← spaces_finish, finish_nil h]
  split
  · exact .inl rfl
  · exact .inr (congrArg some (valueStep_none h))
  · exact .inr (congrArg some (keyStep_none h))
  · split
    · exact .inr (congrArg some (insideStep_none h))
    · exact .inl (if_pos h)

theorem step_cut {p q' : Parser} {e' : Event} (hne : p.spaces.rest ≠ [])
    (h : step (more p ms) = some (.ok (e', q'))) :
    ∃ x, step p = some x ∧ CutStep ms p x e' q' := by
  have hlead := spaces_cutShort p
  have hfinish := spaces_finish p
  rw [step, spaces_more hne] at h
  rw [step]
  generalize p.spaces = r at h hne hlead hfinish
  have hnext : (more r ms).next = r.next := rfl
  have hobjects : (more r ms).objects = r.objects := rfl
  rw [hnext, hobjects] at h
  cases hn : r.next with
  | done =>
    rw [hn] at h
    cases h
  | value closes =>
    rw [hn] at h
    exact ⟨_, rfl, (valueStep_cut hne (Option.some.inj h)).of_lead hfinish hlead⟩
  | key closes =>
    rw [hn] at h
    exact ⟨_, rfl, (keyStep_cut hne (Option.some.inj h)).of_lead hfinish hlead⟩
  | after =>
    rw [hn] at h
    cases ho : r.objects with
    | cons object objects =>
      rw [ho] at h
      exact ⟨_, rfl, (insideStep_cut hne (Option.some.inj h)).of_lead hfinish hlead⟩
    | nil =>
      rw [ho] at h
      dsimp only at h
      split_ifs at h
      cases h

theorem step_over {p : Parser} (hne : p.spaces.rest ≠ []) (h : step (more p ms) = none) :
    step p = none := by
  rw [step, spaces_more hne] at h
  rw [step]
  generalize p.spaces = r at h hne
  have hnext : (more r ms).next = r.next := rfl
  have hobjects : (more r ms).objects = r.objects := rfl
  have hrest : (more r ms).rest ≠ [] := fun hnil => hne (List.append_eq_nil_iff.mp hnil).1
  rw [hnext, hobjects, if_neg hrest] at h
  rw [if_neg hne]
  cases hn : r.next with
  | done => rfl
  | value closes =>
    rw [hn] at h
    cases h
  | key closes =>
    rw [hn] at h
    cases h
  | after =>
    rw [hn] at h
    cases ho : r.objects with
    | cons object objects =>
      rw [ho] at h
      cases h
    | nil =>
      rw [ho] at h
      cases h

theorem scalar_cutShort {d : Doc} {b : Bytes} {e : Event} (h : Writes d b) (hd : d.events = [e])
    (rest : Bytes) : cutShort false (b ++ rest) = cutShort false rest := by
  cases h with
  | null => exact cutShort_plain (by simp [word]; decide) rest
  | true => exact cutShort_plain (by simp [word]; decide) rest
  | false => exact cutShort_plain (by simp [word]; decide) rest
  | number hn => exact cutShort_plain (number_plain hn) rest
  | string htext => exact cutShort_quoted htext rest
  | _ => simp [Doc.events] at hd

theorem valueLead_plain {p : Parser} {lead : Bytes} (h : ValueLead p lead) :
    ∀ b ∈ lead, b ≠ byte '"' := by
  cases h with
  | here _ hw => exact spaces_plain hw
  | comma _ _ hw hv =>
    exact List.forall_mem_append.mpr
      ⟨spaces_plain hw, List.forall_mem_cons.mpr ⟨by decide, spaces_plain hv⟩⟩

theorem keyLead_plain {p : Parser} {lead : Bytes} (h : KeyLead p lead) :
    ∀ b ∈ lead, b ≠ byte '"' := by
  cases h with
  | here _ hw => exact spaces_plain hw
  | comma _ _ hw hv =>
    exact List.forall_mem_append.mpr
      ⟨spaces_plain hw, List.forall_mem_cons.mpr ⟨by decide, spaces_plain hv⟩⟩

theorem stepped_cutShort {p q : Parser} {e : Event} (h : Stepped p e q) :
    cutShort false p.rest = cutShort false q.rest := by
  have hone : ∀ {b : UInt8}, b ≠ byte '"' → ∀ x ∈ [b], x ≠ byte '"' :=
    fun hb => List.forall_mem_singleton.mpr hb
  cases h with
  | scalar hlead hw hd _ hto =>
    rw [hto.rest, List.append_assoc, cutShort_plain (valueLead_plain hlead),
      scalar_cutShort hw hd]
  | beginArray hlead _ hto =>
    rw [hto.rest, List.append_assoc, cutShort_plain (valueLead_plain hlead)]
    exact cutShort_plain (hone (by decide)) _
  | beginObject hlead _ hto =>
    rw [hto.rest, List.append_assoc, cutShort_plain (valueLead_plain hlead)]
    exact cutShort_plain (hone (by decide)) _
  | key hlead htext hw hto =>
    rw [hto.rest, List.append_assoc, List.append_assoc, List.append_assoc,
      cutShort_plain (keyLead_plain hlead), cutShort_quoted htext,
      cutShort_plain (spaces_plain hw)]
    exact cutShort_plain (hone (by decide)) _
  | endArray _ hw hto =>
    rw [hto.rest, List.append_assoc, cutShort_plain (spaces_plain hw)]
    exact cutShort_plain (hone (by decide)) _
  | endObject _ hw hto =>
    rw [hto.rest, List.append_assoc, cutShort_plain (spaces_plain hw)]
    exact cutShort_plain (hone (by decide)) _

theorem spaces_nil {p : Parser} (h : p.rest = []) : p.spaces.rest = [] := by
  obtain ⟨w, ht, -⟩ := took_spaces p
  have hrest := ht.rest
  rw [h] at hrest
  exact (List.append_eq_nil_iff.mp hrest.symm).2

theorem readFrom_none {p : Parser} {m : Malformed} (h : p.spaces.rest = [])
    (hm : (readFrom p).2 = .error m) : m.offset = finish p := by
  rw [readFrom] at hm
  rcases step_none h with hs | hs
  · split at hm
    · cases hm
    · rename_i _ hstep
      exact absurd (hs.symm.trans hstep) nofun
    · rename_i _ _ hstep
      exact absurd (hs.symm.trans hstep) nofun
  · split at hm
    · cases hm
    · rename_i _ hstep
      cases hs.symm.trans hstep
      cases hm
      rfl
    · rename_i _ _ hstep
      exact absurd (hs.symm.trans hstep) nofun

/-- What is read first of bytes that stop early, beside what is read first where more follow. -/
theorem stepped_more {p : Parser} {x : Except Malformed (Event × Parser)}
    (hne : p.spaces.rest ≠ []) (h : (readFrom (more p ms)).2 = .ok ()) (hs : step p = some x) :
    ∃ e' q', CutStep ms p x e' q' ∧ (readFrom q').2 = .ok () := by
  rw [readFrom] at h
  split at h
  · rename_i hover
    cases (step_over hne hover).symm.trans hs
  · cases h
  · rename_i e' q' hstep
    obtain ⟨y, hy, hcut⟩ := step_cut hne hstep
    obtain rfl := Option.some.inj (hy.symm.trans hs)
    exact ⟨e', q', hcut, h⟩

/-- Bytes that stop before the document they begin was whole are refused at their end, or where the
escape that stops with them began to be one. -/
theorem readFrom_cut {p : Parser} {m : Malformed} (h : (readFrom (more p ms)).2 = .ok ())
    (hm : (readFrom p).2 = .error m) : m.offset + cutShort false p.rest = finish p := by
  by_cases hempty : p.spaces.rest = []
  · rw [readFrom_none hempty hm, spaces_cutShort, hempty]
    rfl
  · fun_induction readFrom p with
    | case1 => cases hm
    | case2 p malformed hs =>
      cases hm
      obtain ⟨e', q', hcut, -⟩ := stepped_more hempty h hs
      cases hcut with
      | short _ _ hplace => exact hplace
    | case3 p e q hs events answer hq ih =>
      have hstepped := step_stepped hs
      rw [hq] at ih
      obtain ⟨e', q', hcut, h⟩ := stepped_more hempty h hs
      cases hcut with
      | same =>
        rw [stepped_cutShort hstepped, ← stepped_finish hstepped]
        by_cases hdone : q.spaces.rest = []
        · have hplace := readFrom_none hdone (by rw [hq]; exact hm)
          rw [hplace, spaces_cutShort, hdone]
          rfl
        · exact ih h hm hdone
      | all _ _ hrest _ hfinish hplain =>
        rw [hplain, ← hfinish]
        exact readFrom_none (spaces_nil hrest) (by rw [hq]; exact hm)

end Steps

/-- A refusal's offset is within the bytes. Where the bytes begin a document that is accepted, it is
their length precisely where they do not stop inside the digits of an escape, or between the
backslash and the `u` of a low half. -/
theorem refusals_end_iff {bytes : Bytes} {malformed : Malformed}
    (h : (read bytes).2 = .error malformed) :
    malformed.offset ≤ bytes.length ∧
      ∀ following, following ≠ [] → (read (bytes ++ following)).2 = .ok () →
        (malformed.offset = bytes.length ↔ cutShort false bytes = 0) := by
  have hfinish : finish (.new bytes) = bytes.length := Nat.zero_add _
  refine ⟨hfinish ▸ readFrom_refused h, ?_⟩
  intro following _ hwhole
  have hcut : malformed.offset + cutShort false bytes = finish (.new bytes) :=
    @readFrom_cut following (.new bytes) malformed hwhole h
  rw [hfinish] at hcut
  omega

theorem escape_cut_refused :
    (read [byte '"', byte '\\', byte 'u', byte '1']).2 = .error ⟨3⟩ := by
  have hscan : scan ⟨[byte '\\', byte 'u', byte '1'], 1, .value false, []⟩ = .error ⟨3⟩ := by
    rw [scan_backslash rfl]
    rfl
  have hstep : step (.new [byte '"', byte '\\', byte 'u', byte '1']) = some (.error ⟨3⟩) := by
    change some (scan ⟨[byte '\\', byte 'u', byte '1'], 1, .value false, []⟩ >>= _ >>= _) = _
    rw [hscan]
    rfl
  change (readFrom (.new [byte '"', byte '\\', byte 'u', byte '1'])).2 = _
  rw [readFrom]
  split
  · rename_i h
    cases hstep.symm.trans h
  · rename_i m h
    cases hstep.symm.trans h
    rfl
  · rename_i e q h
    cases hstep.symm.trans h

theorem escape_whole_accepted :
    (read ([byte '"', byte '\\', byte 'u', byte '1'] ++
      [byte '2', byte '3', byte '4', byte '"'])).2 = .ok () := by
  have hpoint : JsonScanner.hex4 [byte '1', byte '2', byte '3', byte '4'] = some 0x1234 := by decide
  have hescape := Escape.unit hpoint (by decide) (by decide)
  have hspells := Spells.cons (.escape hescape) .nil
  rw [List.append_nil] at hspells
  have hwrites := Writes.string (@id (IsText (Text.mk _).written) ⟨_, hspells⟩)
  have hdocument : Document _ _ := ⟨[], _, [], (List.append_nil _).symm, nofun, hwrites, nofun⟩
  have hread := read_document hdocument (Nat.zero_le _)
  exact congrArg Prod.snd hread

/-- A string that stops after the first digit of an escape is refused where its digits begin. -/
theorem refusals_short_of_the_end :
    ¬∀ bytes following malformed, (read bytes).2 = .error malformed → following ≠ [] →
      (read (bytes ++ following)).2 = .ok () → malformed.offset = bytes.length := by
  intro h
  have hlength := h _ _ _ escape_cut_refused (List.cons_ne_nil _ _) escape_whole_accepted
  cases hlength

theorem refusals_end_iff_digit :
    (3 : ℕ) = 4 ↔ cutShort false [byte '"', byte '\\', byte 'u', byte '1'] = 0 :=
  (refusals_end_iff escape_cut_refused).2 _ (List.cons_ne_nil _ _) escape_whole_accepted

end SoutherNative.JsonCutting
