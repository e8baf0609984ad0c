import SoutherNative.External

set_option autoImplicit false

/-!
# What is written is read back

`document` is the document a form is written as and `node` the tree it should be read back as. The
writer's stack spells the document's bytes, and reading those builds the tree.
-/
namespace SoutherNative.ExternalRoundTrip
open Utf8 JsonScanner JsonGrammar JsonSyntax JsonText JsonAccepting Document External

variable {Amount : Type} (externalText : Amount → Bytes)

def escapedText (text : Bytes) : Text := ⟨text.flatMap escaped⟩

theorem foldl_escaped (text out : Bytes) :
    text.foldl (fun out b => out ++ escaped b) out = out ++ text.flatMap escaped := by
  induction text generalizing out with
  | nil => simp
  | cons b text ih => simp [ih, List.append_assoc]

theorem quoted_eq (text out : Bytes) :
    External.quoted text out = out ++ JsonGrammar.quoted (escapedText text) := by
  rw [External.quoted, foldl_escaped]
  simp [JsonGrammar.quoted, escapedText]

theorem control_piece : ∀ n < 0x20,
    hex4 [byte '0', byte '0', lowerHex (n / 16), lowerHex (n % 16)] = some n := by decide

theorem escaped_control {c : Char} (hc : c.toNat < 0x20)
    (he : escaped (UInt8.ofNat c.toNat) = [byte '\\', byte 'u', byte '0', byte '0',
      lowerHex (c.toNat / 16), lowerHex (c.toNat % 16)]) :
    Piece (escaped (UInt8.ofNat c.toNat)) c := by
  have hhigh : isHigh c.toNat = false := by simp [isHigh]; omega
  have hlow : isLow c.toNat = false := by simp [isLow]; omega
  have hpiece := Escape.unit (control_piece c.toNat hc) hhigh hlow
  rw [Char.ofNat_toNat] at hpiece
  rw [he]
  exact .escape hpiece

theorem escaped_bare {b : UInt8} (hq : b ≠ byte '"') (hs : b ≠ byte '\\') (hle : ¬ b ≤ 0x1f) :
    escaped b = [b] := by
  have hn : b ≠ byte '\n' := by rintro rfl; exact hle (by decide)
  have hr : b ≠ byte '\r' := by rintro rfl; exact hle (by decide)
  have ht : b ≠ byte '\t' := by rintro rfl; exact hle (by decide)
  simp only [escaped, hq, hs, hn, hr, ht, hle, ↓reduceIte]

theorem escaped_char (c : Char) : Piece ((String.utf8EncodeChar c).flatMap escaped) c := by
  by_cases hbare : 0x20 ≤ c.toNat ∧ c ≠ '"' ∧ c ≠ '\\'
  · obtain ⟨hc, hq, hs⟩ := hbare
    have hsame : (String.utf8EncodeChar c).flatMap escaped = String.utf8EncodeChar c := by
      have hall := piece_plains hc hq hs
      generalize String.utf8EncodeChar c = w at hall
      induction w with
      | nil => rfl
      | cons b w ih =>
        obtain ⟨hbq, hbs, hble⟩ := hall b (by simp)
        rw [List.flatMap_cons, escaped_bare hbq hbs hble, ih (fun x hx => hall x (by simp [hx]))]
        rfl
    rw [hsame]
    exact .plain c hc hq hs
  · have hascii : c.toNat < 0x80 := by
      by_contra hge
      refine hbare ⟨by omega, ?_, ?_⟩ <;> rintro rfl <;> exact hge (by decide)
    rw [encodeChar_ascii hascii, List.flatMap_singleton]
    by_cases hq : c = '"'
    · subst hq
      exact .escape .quote
    by_cases hs : c = '\\'
    · subst hs
      exact .escape .backslash
    by_cases hn : c = '\n'
    · subst hn
      exact .escape .newline
    by_cases hr : c = '\r'
    · subst hr
      exact .escape .carriageReturn
    by_cases ht : c = '\t'
    · subst ht
      exact .escape .tab
    have hc : c.toNat < 0x20 := by
      by_contra hge
      exact hbare ⟨by omega, hq, hs⟩
    have hne : ∀ d : Char, c ≠ d → d.toNat < 0x80 → UInt8.ofNat c.toNat ≠ byte d := by
      intro d hd hdlt heq
      apply hd
      have := congrArg UInt8.toNat heq
      simp only [byte, UInt8.toNat_ofNat'] at this
      exact Char.toNat_inj.mp (by omega)
    have hle : UInt8.ofNat c.toNat ≤ 0x1f := by
      rw [UInt8.le_iff_toNat_le, UInt8.toNat_ofNat']
      have : (0x1f : UInt8).toNat = 0x1f := rfl
      omega
    have hval : (UInt8.ofNat c.toNat).toNat = c.toNat := by
      rw [UInt8.toNat_ofNat']
      omega
    refine escaped_control hc ?_
    simp only [escaped, hne '"' hq (by decide), hne '\\' hs (by decide), hne '\n' hn (by decide),
      hne '\r' hr (by decide), hne '\t' ht (by decide), hle, hval, ↓reduceIte]

theorem escapedText_spells (cs : List Char) : Spells (escapedText (encode cs)).written cs := by
  induction cs with
  | nil => exact .nil
  | cons c cs ih =>
    have hcons : (escapedText (encode (c :: cs))).written =
        (String.utf8EncodeChar c).flatMap escaped ++ (escapedText (encode cs)).written := by
      simp [escapedText]
    rw [hcons]
    exact .cons (escaped_char c) ih

theorem decimal_digit {n : ℕ} {c : Char} (hc : c ∈ Nat.toDigits 10 n) :
    isDigit (byte c) = true := by
  have hd := Nat.isDigit_of_mem_toDigits (by decide) (by decide) hc
  have hle : 48 ≤ c.toNat ∧ c.toNat ≤ 57 := by
    simpa [Char.isDigit, UInt32.le_iff_toNat_le] using hd
  have h0 : (byte '0').toNat = 48 := rfl
  have h9 : (byte '9').toNat = 57 := rfl
  have hb : (byte c).toNat = c.toNat := by
    rw [byte, UInt8.toNat_ofNat']
    omega
  simp only [isDigit, Bool.and_eq_true, decide_eq_true_eq, UInt8.le_iff_toNat_le]
  omega

theorem decimal_pos {n : ℕ} (hn : 0 < n) : ∃ d ds, decimal n = d :: ds ∧ isDigit d = true ∧
    d ≠ byte '0' ∧ ∀ b ∈ ds, isDigit b = true := by
  induction n using Nat.strong_induction_on with
  | _ n ih =>
    by_cases hlt : n < 10
    · interval_cases n
      all_goals exact ⟨_, [], rfl, by decide, by decide, by simp⟩
    · have hdigits := Nat.toDigits_of_base_le (by decide) (show 10 ≤ n by omega)
      obtain ⟨d, ds, hds, hd, hne, hall⟩ := ih (n / 10) (by omega) (by omega)
      refine ⟨d, ds ++ [byte (Nat.digitChar (n % 10))], ?_, hd, hne, ?_⟩
      · rw [decimal, hdigits, List.map_append, ← decimal, hds]
        rfl
      · intro b hb
        rcases List.mem_append.mp hb with hb | hb
        · exact hall b hb
        · rw [List.mem_singleton.mp hb]
          exact decimal_digit (n := n) (by rw [hdigits]; simp)

/-- A number's digits are what JSON writes a whole number with: no `0` before another digit. -/
theorem decimal_whole (n : ℕ) : Whole (decimal n) := by
  rcases Nat.eq_zero_or_pos n with rfl | hn
  · exact .inl rfl
  · exact .inr (decimal_pos hn)

theorem intText_number (value : Int64) : IsNumber (intText value) := by
  unfold intText
  split_ifs
  · exact ⟨[byte '-'], decimal value.toInt.natAbs, [], [], by simp, .inr rfl, decimal_whole _,
      .inl rfl, .inl rfl⟩
  · exact ⟨[], decimal value.toInt.natAbs, [], [], by simp, .inl rfl, decimal_whole _,
      .inl rfl, .inl rfl⟩

mutual

def document : External.Form Amount → Doc
  | .null => .null
  | .bool truth => .bool truth
  | .number value => .number (intText value)
  | .amount amount => .number (externalText amount)
  | .string text => .string (escapedText text)
  | .array items => .array (itemDocuments items)
  | .object members => .object (memberDocuments members)

def itemDocuments : List (External.Form Amount) → List Doc
  | [] => []
  | item :: items => document item :: itemDocuments items

def memberDocuments : List (Bytes × External.Form Amount) → List (Text × Doc)
  | [] => []
  | (key, item) :: members => (escapedText key, document item) :: memberDocuments members

end

mutual

def tree : External.Form Amount → Node
  | .null => .null
  | .bool truth => .bool truth
  | .number value => .number (intText value)
  | .amount amount => .number (externalText amount)
  | .string text => .string text
  | .array items => .array (itemTrees items)
  | .object members => .object (memberTrees members)

def itemTrees : List (External.Form Amount) → List Node
  | [] => []
  | item :: items => tree item :: itemTrees items

def memberTrees : List (Bytes × External.Form Amount) → List (Key × Node)
  | [] => []
  | (key, item) :: members => (⟨key⟩, tree item) :: memberTrees members

end

mutual

def nesting : External.Form Amount → ℕ
  | .array items => 1 + itemsNesting items
  | .object members => 1 + membersNesting members
  | _ => 0

def itemsNesting : List (External.Form Amount) → ℕ
  | [] => 0
  | item :: items => max (nesting item) (itemsNesting items)

def membersNesting : List (Bytes × External.Form Amount) → ℕ
  | [] => 0
  | (_, item) :: members => max (nesting item) (membersNesting members)

end

def IsUtf8 (text : Bytes) : Prop := ∃ cs, text = encode cs

mutual

def Writable : External.Form Amount → Prop
  | .string text => IsUtf8 text
  | .amount amount => IsNumber (externalText amount)
  | .array items => ItemsWritable items
  | .object members => MembersWritable members
  | _ => True

def ItemsWritable : List (External.Form Amount) → Prop
  | [] => True
  | item :: items => Writable item ∧ ItemsWritable items

def MembersWritable : List (Bytes × External.Form Amount) → Prop
  | [] => True
  | (key, item) :: members => IsUtf8 key ∧ Writable item ∧ MembersWritable members

end

mutual

def spelled : External.Form Amount → Bytes
  | .null => word "null"
  | .bool true => word "true"
  | .bool false => word "false"
  | .number value => intText value
  | .amount amount => externalText amount
  | .string text => JsonGrammar.quoted (escapedText text)
  | .array [] => [byte '[', byte ']']
  | .array (item :: items) => byte '[' :: spelled item ++ itemsSpelled items ++ [byte ']']
  | .object [] => [byte '{', byte '}']
  | .object ((key, item) :: members) =>
    byte '{' :: JsonGrammar.quoted (escapedText key) ++ byte ':' :: spelled item ++
      membersSpelled members ++ [byte '}']

def itemsSpelled : List (External.Form Amount) → Bytes
  | [] => []
  | item :: items => byte ',' :: spelled item ++ itemsSpelled items

def membersSpelled : List (Bytes × External.Form Amount) → Bytes
  | [] => []
  | (key, item) :: members =>
    byte ',' :: JsonGrammar.quoted (escapedText key) ++ byte ':' :: spelled item ++
      membersSpelled members

end

def stepSpelled : Step Amount → Bytes
  | .form f => spelled externalText f
  | .key key => JsonGrammar.quoted (escapedText key) ++ [byte ':']
  | .punctuation text => text

theorem itemSteps_spelled (items : List (External.Form Amount)) :
    (itemSteps items).flatMap (stepSpelled externalText) = itemsSpelled externalText items := by
  induction items with
  | nil => simp [itemSteps, itemsSpelled]
  | cons item items ih => simp [itemSteps, itemsSpelled, stepSpelled, ih]

theorem memberSteps_spelled (members : List (Bytes × External.Form Amount)) :
    (memberSteps members).flatMap (stepSpelled externalText) =
      membersSpelled externalText members := by
  induction members with
  | nil => simp [memberSteps, membersSpelled]
  | cons m members ih =>
    obtain ⟨key, item⟩ := m
    simp [memberSteps, membersSpelled, stepSpelled, ih]

theorem pushItems_spelled (items : List (External.Form Amount)) (left : List (Step Amount)) :
    byte '[' :: (pushItems items left).flatMap (stepSpelled externalText) =
      spelled externalText (.array items) ++ left.flatMap (stepSpelled externalText) := by
  cases items with
  | nil => simp [pushItems_nil, spelled, stepSpelled]
  | cons item items => simp [pushItems_cons, spelled, stepSpelled, itemSteps_spelled]

theorem pushMembers_spelled (members : List (Bytes × External.Form Amount))
    (left : List (Step Amount)) :
    byte '{' :: (pushMembers members left).flatMap (stepSpelled externalText) =
      spelled externalText (.object members) ++ left.flatMap (stepSpelled externalText) := by
  cases members with
  | nil => simp [pushMembers_nil, spelled, stepSpelled]
  | cons m members =>
    obtain ⟨key, item⟩ := m
    simp [pushMembers_cons, spelled, stepSpelled, memberSteps_spelled]

theorem writeFrom_eq (left : List (Step Amount)) (out : Bytes) :
    writeFrom externalText left out = out ++ left.flatMap (stepSpelled externalText) := by
  fun_induction writeFrom externalText left out with
  | case1 => simp
  | case2 out text left ih | case4 out left ih | case5 out left ih | case6 out left ih
  | case7 out value left ih | case8 out amount left ih =>
    rw [ih]
    simp [stepSpelled, spelled]
  | case3 out key left ih | case9 out text left ih =>
    rw [ih, quoted_eq]
    simp [stepSpelled, spelled]
  | case10 out items left ih =>
    rw [ih, List.append_assoc, List.singleton_append, pushItems_spelled]
    rfl
  | case11 out members left ih =>
    rw [ih, List.append_assoc, List.singleton_append, pushMembers_spelled]
    rfl

theorem write_eq (f : External.Form Amount) : write externalText f = spelled externalText f := by
  rw [write, writeFrom_eq]
  simp [stepSpelled]

theorem escapedText_isText {text : Bytes} (h : IsUtf8 text) :
    IsText (escapedText text).written := by
  obtain ⟨cs, rfl⟩ := h
  exact ⟨cs, escapedText_spells cs⟩

theorem escapedText_bytes {text : Bytes} (h : IsUtf8 text) :
    JsonText.bytes (escapedText text) = .ok text := by
  obtain ⟨cs, rfl⟩ := h
  exact bytes_spells (escapedText_spells cs)

theorem spaces_nil : Spaces [] := by simp [Spaces]

mutual

theorem spelled_writes (f : External.Form Amount) (h : Writable externalText f) :
    Writes (document externalText f) (spelled externalText f) := by
  cases f with
  | null => exact .null
  | bool truth => cases truth <;> first | exact .true | exact .false
  | number value => exact .number (intText_number value)
  | amount amount => exact .number h
  | string text => exact .string (escapedText_isText h)
  | array items =>
    cases items with
    | nil => exact .emptyArray spaces_nil
    | cons item items =>
      have hone := Elements.one spaces_nil (spelled_writes item h.1)
      have := Writes.array (itemsSpelled_elements items h.2 hone) spaces_nil
      simpa [document, itemDocuments, spelled] using this
  | object members =>
    cases members with
    | nil => exact .emptyObject spaces_nil
    | cons m members =>
      obtain ⟨key, item⟩ := m
      have hone := Members.one spaces_nil (escapedText_isText h.1) spaces_nil spaces_nil
        (spelled_writes item h.2.1)
      have := Writes.object (membersSpelled_members members h.2.2 hone) spaces_nil
      simpa [document, memberDocuments, spelled] using this

theorem itemsSpelled_elements (items : List (External.Form Amount))
    (h : ItemsWritable externalText items) {ds : List Doc} {bs : Bytes} (hds : Elements ds bs) :
    Elements (ds ++ itemDocuments externalText items) (bs ++ itemsSpelled externalText items) := by
  cases items with
  | nil => simpa [itemDocuments, itemsSpelled] using hds
  | cons item items =>
    have hmore := Elements.more hds spaces_nil spaces_nil (spelled_writes item h.1)
    have := itemsSpelled_elements items h.2 hmore
    simpa [itemDocuments, itemsSpelled] using this

theorem membersSpelled_members (members : List (Bytes × External.Form Amount))
    (h : MembersWritable externalText members) {ms : List (Text × Doc)} {bs : Bytes}
    (hms : Members ms bs) :
    Members (ms ++ memberDocuments externalText members)
      (bs ++ membersSpelled externalText members) := by
  cases members with
  | nil => simpa [memberDocuments, membersSpelled] using hms
  | cons m members =>
    obtain ⟨key, item⟩ := m
    have hmore := Members.more hms spaces_nil spaces_nil (escapedText_isText h.1) spaces_nil
      spaces_nil (spelled_writes item h.2.1)
    have := membersSpelled_members members h.2.2 hmore
    simpa [memberDocuments, membersSpelled] using this

end

mutual

theorem document_depth (f : External.Form Amount) : (document externalText f).depth = nesting f := by
  cases f with
  | array items => simp [document, Doc.depth, nesting, itemDocuments_depth items]
  | object members => simp [document, Doc.depth, nesting, memberDocuments_depth members]
  | _ => simp [document, Doc.depth, nesting]

theorem itemDocuments_depth (items : List (External.Form Amount)) :
    itemsDepth (itemDocuments externalText items) = itemsNesting items := by
  cases items with
  | nil => rfl
  | cons item items =>
    simp [itemDocuments, itemsDepth, itemsNesting, document_depth item, itemDocuments_depth items]

theorem memberDocuments_depth (members : List (Bytes × External.Form Amount)) :
    membersDepth (memberDocuments externalText members) = membersNesting members := by
  cases members with
  | nil => rfl
  | cons m members =>
    obtain ⟨key, item⟩ := m
    simp [memberDocuments, membersDepth, membersNesting, document_depth item,
      memberDocuments_depth members]

end

mutual

theorem node_document (f : External.Form Amount) (h : Writable externalText f) :
    node .text (document externalText f) = .ok (tree externalText f) := by
  cases f with
  | null | bool | number | amount => rfl
  | string text =>
    rw [document, node, escapedText_bytes h]
    rfl
  | array items =>
    rw [document, node, nodes_itemDocuments items h]
    rfl
  | object members =>
    rw [document, node, memberNodes_memberDocuments members h]
    rfl

theorem nodes_itemDocuments (items : List (External.Form Amount))
    (h : ItemsWritable externalText items) :
    nodes .text (itemDocuments externalText items) = .ok (itemTrees externalText items) := by
  cases items with
  | nil => rfl
  | cons item items =>
    rw [itemDocuments, nodes, node_document item h.1, nodes_itemDocuments items h.2]
    rfl

theorem memberNodes_memberDocuments (members : List (Bytes × External.Form Amount))
    (h : MembersWritable externalText members) :
    memberNodes .text (memberDocuments externalText members) =
      .ok (memberTrees externalText members) := by
  cases members with
  | nil => rfl
  | cons m members =>
    obtain ⟨key, item⟩ := m
    rw [memberDocuments, memberNodes, escapedText_bytes h.1, node_document item h.2.1,
      memberNodes_memberDocuments members h.2.2]
    rfl

end

/-- What `write` makes of a form is read back by `parsed` as the form's tree. -/
theorem parsed_write (f : External.Form Amount) (hf : Writable externalText f)
    (hdeep : nesting f ≤ deepest) :
    parsed (write externalText f) .text = .ok (.ok (tree externalText f)) := by
  have hdoc : Document (document externalText f) (write externalText f) := by
    refine ⟨[], spelled externalText f, [], ?_, spaces_nil, spelled_writes externalText f hf,
      spaces_nil⟩
    simp [write_eq]
  exact parsed_document hdoc (by rwa [document_depth]) (node_document externalText f hf)

/-- A record holding one of each, with a key and text that have to be escaped. -/
theorem parsed_write_record :
    let f : External.Form Bytes := .object [([byte '"'], .amount (word "1.50")),
      ([byte '"'], .array [.null, .string [byte '\n'], .number (-7)])]
    parsed (write id f) .text = .ok (.ok (tree id f)) := by
  refine parsed_write id _ ?_ (by decide)
  refine ⟨⟨['"'], by decide⟩, ?_, ⟨['"'], by decide⟩, ⟨trivial, ⟨['\n'], by decide⟩, trivial,
    trivial⟩, trivial⟩
  have hdigits : Digits [byte '5', byte '0'] := by
    refine ⟨by simp, ?_⟩
    simp only [List.mem_cons, List.not_mem_nil, or_false, forall_eq_or_imp, forall_eq]
    decide
  exact ⟨[], [byte '1'], [byte '.', byte '5', byte '0'], [], rfl, .inl rfl,
    .inr ⟨byte '1', [], rfl, by decide, by decide, by simp⟩, .inr ⟨_, rfl, hdigits⟩, .inl rfl⟩

end SoutherNative.ExternalRoundTrip
