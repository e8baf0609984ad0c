import SoutherNative.HashTrie

set_option autoImplicit false

/-!
# What holds of every trie

`Sound shift p` says of a word `shift` bits down that its entries' hashes share the low `shift` bits
of `p`, that a node's header says where its words are, that entries stand side by side only where
every bit has been used, that no node is empty, and that no two keys are equal. Each operation keeps
it, and what it does to the entries listed is said beside it.
-/
namespace SoutherNative.HashTrie
open Bitmap

variable {K V : Type}

/-- The hashes are the same in the low `shift` bits. -/
def Agrees (shift : ℕ) (p q : BitVec 64) : Prop := ∀ i < shift, p.getLsbD i = q.getLsbD i

theorem Agrees.refl (shift : ℕ) (p : BitVec 64) : Agrees shift p p := fun _ _ => rfl

theorem Agrees.symm {shift : ℕ} {p q : BitVec 64} (h : Agrees shift p q) : Agrees shift q p :=
  fun i hi => (h i hi).symm

theorem Agrees.trans {shift : ℕ} {p q r : BitVec 64} (h : Agrees shift p q)
    (k : Agrees shift q r) : Agrees shift p r :=
  fun i hi => (h i hi).trans (k i hi)

theorem Agrees.mono {shift shift' : ℕ} {p q : BitVec 64} (h : Agrees shift p q)
    (hle : shift' ≤ shift) : Agrees shift' p q :=
  fun i hi => h i (by omega)

theorem Agrees.eq {shift : ℕ} {p q : BitVec 64} (h : Agrees shift p q) (hs : DEEPEST ≤ shift) :
    p = q := by
  apply BitVec.eq_of_getLsbD_eq
  intro i hi
  exact h i (by simp only [DEEPEST] at hs; omega)

theorem digit_lt (hash : BitVec 64) (shift : ℕ) : digit hash shift < 32 := by
  have h : digit hash shift ≤ 31 := by
    simpa [digit] using Nat.and_le_right (n := (hash >>> shift).toNat) (m := 31)
  omega

theorem getLsbD_digit (hash : BitVec 64) (shift j : ℕ) (hj : j < BITS) :
    (hash >>> shift &&& 31#64).getLsbD j = hash.getLsbD (shift + j) := by
  have hone : (31#64).getLsbD j = true := by
    simp only [BITS] at hj
    interval_cases j <;> rfl
  rw [BitVec.getLsbD_and, hone, Bool.and_true, BitVec.getLsbD_ushiftRight]

theorem Agrees.digit_eq {shift : ℕ} {p q : BitVec 64} (h : Agrees (shift + BITS) p q) :
    digit p shift = digit q shift := by
  unfold digit
  congr 1
  apply BitVec.eq_of_getLsbD_eq
  intro i hi
  by_cases hj : i < BITS
  · rw [getLsbD_digit _ _ _ hj, getLsbD_digit _ _ _ hj, h _ (by omega)]
  · have hzero : (31#64).getLsbD i = false := by
      simp only [BITS] at hj
      interval_cases i <;> rfl
    rw [BitVec.getLsbD_and, BitVec.getLsbD_and, hzero, Bool.and_false, Bool.and_false]

theorem Agrees.next {shift : ℕ} {p q : BitVec 64} (h : Agrees shift p q)
    (hd : digit p shift = digit q shift) : Agrees (shift + BITS) p q := by
  intro i hi
  by_cases hlow : i < shift
  · exact h i hlow
  · have hd' := BitVec.eq_of_toNat_eq hd
    have := congrArg (BitVec.getLsbD · (i - shift)) hd'
    simp only [getLsbD_digit _ _ (i - shift) (by omega)] at this
    rwa [show shift + (i - shift) = i by omega] at this

section Sound

variable (hash : K → BitVec 64) (equal : K → K → Bool)

mutual

inductive Sound : ℕ → BitVec 64 → Word K V → Prop
  | entry {shift : ℕ} {p : BitVec 64} {e : Entry K V} : e.hash = hash e.key →
      Agrees shift p e.hash → Sound shift p (.entry e)
  | sideBySide {shift : ℕ} {p : BitVec 64} {es : List (Entry K V)} : DEEPEST ≤ shift → es ≠ [] →
      es.length < 2 ^ 63 → (∀ e ∈ es, e.hash = hash e.key ∧ Agrees shift p e.hash) →
      es.Pairwise (fun a b => equal a.key b.key = false) →
      Sound shift p (.node (SIDE_BY_SIDE ||| BitVec.ofNat 64 es.length) (es.map .entry))
  | branch {shift : ℕ} {p header : BitVec 64} {words : List (Word K V)} : shift < DEEPEST →
      header ≠ 0#64 → (∀ d ∈ digits header, d < 32) → Aligned shift p (digits header) words →
      Sound shift p (.node header words)

inductive Aligned : ℕ → BitVec 64 → List ℕ → List (Word K V) → Prop
  | nil {shift : ℕ} {p : BitVec 64} : Aligned shift p [] []
  | cons {shift d : ℕ} {p q : BitVec 64} {ds : List ℕ} {w : Word K V} {ws : List (Word K V)} :
      Agrees shift p q → digit q shift = d → Sound (shift + BITS) q w → Aligned shift p ds ws →
      Aligned shift p (d :: ds) (w :: ws)

end

end Sound

theorem getLsbD_side (n i : ℕ) (hn : n < 2 ^ 63) :
    (SIDE_BY_SIDE ||| BitVec.ofNat 64 n).getLsbD i = (decide (i = 63) || n.testBit i) := by
  rw [BitVec.getLsbD_or, SIDE_BY_SIDE, getLsbD_bit (by decide), BitVec.getLsbD_ofNat]
  by_cases hi : i < 64
  · simp [hi]
  · have : n.testBit i = false := Nat.testBit_lt_two_pow (by
      calc n < 2 ^ 63 := hn
        _ ≤ 2 ^ i := Nat.pow_le_pow_right (by decide) (by omega))
    simp [this, hi]

theorem sideBySide_side {n : ℕ} (hn : n < 2 ^ 63) :
    sideBySide (SIDE_BY_SIDE ||| BitVec.ofNat 64 n) = true := by
  have hset := getLsbD_side n 63 hn
  simp only [sideBySide, decide_eq_true_eq]
  intro h
  rw [SIDE_BY_SIDE, and_bit_eq_zero (by decide), ← SIDE_BY_SIDE, hset] at h
  simp at h

theorem countOf_side {n : ℕ} (hn : n < 2 ^ 63) :
    countOf (SIDE_BY_SIDE ||| BitVec.ofNat 64 n) = n := by
  have hvalue : (SIDE_BY_SIDE ||| BitVec.ofNat 64 n) &&& ~~~SIDE_BY_SIDE = BitVec.ofNat 64 n := by
    apply BitVec.eq_of_getLsbD_eq
    intro i hi
    rw [BitVec.getLsbD_and, getLsbD_side n i hn, BitVec.getLsbD_not, SIDE_BY_SIDE,
      getLsbD_bit (by decide), BitVec.getLsbD_ofNat]
    by_cases h63 : i = 63
    · have : n.testBit i = false := Nat.testBit_lt_two_pow (h63 ▸ hn)
      simp [h63, h63 ▸ this]
    · simp [h63, hi]
  rw [countOf, if_pos (sideBySide_side hn), hvalue, BitVec.toNat_ofNat]
  exact Nat.mod_eq_of_lt (by omega)

theorem sideBySide_branch {header : BitVec 64} (h : ∀ d ∈ digits header, d < 32) :
    sideBySide header = false := by
  have hclear : header.getLsbD 63 = false := by
    by_contra hset
    have := h 63 (mem_digits.mpr (by simpa using hset))
    omega
  simp [sideBySide, SIDE_BY_SIDE, (and_bit_eq_zero (by decide)).mpr hclear]

theorem Aligned.length {hash : K → BitVec 64} {equal : K → K → Bool} {shift : ℕ} {p : BitVec 64}
    {ds : List ℕ} {ws : List (Word K V)} (h : Aligned hash equal shift p ds ws) :
    ws.length = ds.length := by
  induction ws generalizing ds with
  | nil =>
    cases h
    rfl
  | cons w ws ih =>
    cases h with
    | cons _ _ _ hws => simp [ih hws]

theorem gatherFirst_eq (count : ℕ) (words : List (Word K V)) :
    gatherFirst count words = (words.take count).flatMap gather := by
  induction words generalizing count with
  | nil => cases count <;> simp [gatherFirst]
  | cons word words ih =>
    cases count with
    | zero => simp [gatherFirst]
    | succ count => simp [gatherFirst, ih]

section Reads

variable {hash : K → BitVec 64} {equal : K → K → Bool}

theorem Sound.countOf_eq {shift : ℕ} {p header : BitVec 64} {words : List (Word K V)}
    (h : Sound hash equal shift p (.node header words)) : countOf header = words.length := by
  cases h with
  | sideBySide _ _ hlen => rw [countOf_side hlen, List.length_map]
  | branch _ _ hdigits haligned =>
    rw [countOf, sideBySide_branch hdigits, haligned.length]
    rfl

theorem Sound.wordsOf_eq {shift : ℕ} {p header : BitVec 64} {words : List (Word K V)}
    (h : Sound hash equal shift p (.node header words)) : wordsOf header words = words := by
  rw [wordsOf, h.countOf_eq, List.take_length]

theorem Sound.gather_eq {shift : ℕ} {p header : BitVec 64} {words : List (Word K V)}
    (h : Sound hash equal shift p (.node header words)) :
    gather (.node header words) = words.flatMap gather := by
  rw [gather, gatherFirst_eq, h.countOf_eq, List.take_length]

theorem flatMap_gather_entries (es : List (Entry K V)) :
    (es.map Word.entry).flatMap gather = es := by
  induction es with
  | nil => rfl
  | cons e es ih => simp [gather, ih]

mutual

theorem Sound.entries {shift : ℕ} {p : BitVec 64} (w : Word K V) (h : Sound hash equal shift p w) :
    ∀ e ∈ gather w, e.hash = hash e.key ∧ Agrees shift p e.hash := by
  cases w with
  | entry e =>
    cases h with
    | entry hkey hagrees =>
      intro e' he'
      rw [gather, List.mem_singleton] at he'
      exact he' ▸ ⟨hkey, hagrees⟩
  | node header words =>
    rw [h.gather_eq]
    cases h with
    | sideBySide _ _ _ hes => rwa [flatMap_gather_entries]
    | branch _ _ _ haligned =>
      intro e he
      exact ⟨(Aligned.entries words haligned e he).1, (Aligned.entries words haligned e he).2.1⟩

theorem Aligned.entries {shift : ℕ} {p : BitVec 64} {ds : List ℕ} (ws : List (Word K V))
    (h : Aligned hash equal shift p ds ws) : ∀ e ∈ ws.flatMap gather,
      e.hash = hash e.key ∧ Agrees shift p e.hash ∧ digit e.hash shift ∈ ds := by
  cases ws with
  | nil => simp
  | cons w ws =>
    cases h with
    | cons hagrees hdigit hw hws =>
      intro e he
      rw [List.flatMap_cons, List.mem_append] at he
      rcases he with he | he
      · obtain ⟨hkey, hq⟩ := Sound.entries w hw e he
        refine ⟨hkey, hagrees.trans (hq.mono (by omega)), ?_⟩
        rw [← hq.digit_eq, hdigit]
        exact List.mem_cons_self
      · obtain ⟨hkey, hp, hd⟩ := Aligned.entries ws hws e he
        exact ⟨hkey, hp, List.mem_cons_of_mem _ hd⟩

end

/-- What holds under one hash holds under any that is the same so far. -/
theorem Sound.congr {shift : ℕ} {p q : BitVec 64} {w : Word K V} (h : Sound hash equal shift p w)
    (hpq : Agrees shift p q) : Sound hash equal shift q w := by
  have haligned : ∀ {ds : List ℕ} {ws : List (Word K V)}, Aligned hash equal shift p ds ws →
      Aligned hash equal shift q ds ws := by
    intro ds ws hws
    induction ws generalizing ds with
    | nil =>
      cases hws
      exact .nil
    | cons w ws ih =>
      cases hws with
      | cons hagrees hdigit hw hws => exact .cons (hpq.symm.trans hagrees) hdigit hw (ih hws)
  cases h with
  | entry hkey hagrees => exact .entry hkey (hpq.symm.trans hagrees)
  | sideBySide hshift hne hlen hes hpair =>
    exact .sideBySide hshift hne hlen
      (fun e he => ⟨(hes e he).1, hpq.symm.trans (hes e he).2⟩) hpair
  | branch hshift hheader hdigits hws => exact .branch hshift hheader hdigits (haligned hws)

theorem Aligned.split {shift : ℕ} {p : BitVec 64} {ds es : List ℕ} {ws : List (Word K V)}
    (h : Aligned hash equal shift p (ds ++ es) ws) : ∃ us vs, ws = us ++ vs ∧
      Aligned hash equal shift p ds us ∧ Aligned hash equal shift p es vs := by
  induction ds generalizing ws with
  | nil => exact ⟨[], ws, rfl, .nil, h⟩
  | cons d ds ih =>
    rw [List.cons_append] at h
    cases h with
    | cons hagrees hdigit hw hws =>
      obtain ⟨us, vs, rfl, hus, hvs⟩ := ih hws
      exact ⟨_ :: us, vs, rfl, .cons hagrees hdigit hw hus, hvs⟩

theorem Aligned.append {shift : ℕ} {p : BitVec 64} {ds es : List ℕ} {us vs : List (Word K V)}
    (hus : Aligned hash equal shift p ds us) (hvs : Aligned hash equal shift p es vs) :
    Aligned hash equal shift p (ds ++ es) (us ++ vs) := by
  induction us generalizing ds with
  | nil =>
    cases hus
    exact hvs
  | cons u us ih =>
    cases hus with
    | cons hagrees hdigit hu hus => exact .cons hagrees hdigit hu (ih hus)

structure Focused (hash : K → BitVec 64) (equal : K → K → Bool) (shift : ℕ) (header h : BitVec 64)
    (words left : List (Word K V)) (word : Word K V) (right : List (Word K V)) : Prop where
  words : words = left ++ word :: right
  index : indexOf header (bitOf h shift) = left.length
  sound : Sound hash equal (shift + BITS) h word
  left : Aligned hash equal shift h (below header (digit h shift)) left
  right : Aligned hash equal shift h (above header (digit h shift)) right

theorem digit_lt_width (h : BitVec 64) (shift : ℕ) : digit h shift < 64 := by
  have := digit_lt h shift
  omega

theorem Aligned.congr {shift : ℕ} {p q : BitVec 64} {ds : List ℕ} {ws : List (Word K V)}
    (h : Aligned hash equal shift p ds ws) (hpq : Agrees shift p q) :
    Aligned hash equal shift q ds ws := by
  induction ws generalizing ds with
  | nil =>
    cases h
    exact .nil
  | cons w ws ih =>
    cases h with
    | cons hagrees hdigit hw hws => exact .cons (hpq.symm.trans hagrees) hdigit hw (ih hws)

theorem Aligned.focused {shift : ℕ} {header p h : BitVec 64} {words : List (Word K V)}
    (ha : Aligned hash equal shift p (digits header) words) (hp : Agrees shift p h)
    (hbit : header &&& bitOf h shift ≠ 0#64) :
    ∃ left word right, Focused hash equal shift header h words left word right := by
  have hd := digit_lt_width h shift
  have hset : header.getLsbD (digit h shift) = true := by
    by_contra hclear
    exact hbit ((and_bit_eq_zero hd).mpr (by simpa using hclear))
  rw [digits_of_set hset] at ha
  obtain ⟨left, rest, rfl, hleft, hrest⟩ := ha.split
  cases hrest with
  | @cons _ _ _ q _ w ws hagrees hdigit hw hright =>
    have hq : Agrees (shift + BITS) q h := (hagrees.symm.trans hp).next hdigit
    refine ⟨left, w, ws, rfl, ?_, hw.congr hq, hleft.congr hp, hright.congr hp⟩
    rw [indexOf, bitOf, rank_eq hd, hleft.length]

/-- The node with another word where the hash leads. -/
theorem Focused.aligned {shift : ℕ} {header h : BitVec 64} {words left right : List (Word K V)}
    {word word' : Word K V} (hf : Focused hash equal shift header h words left word right)
    (hbit : header &&& bitOf h shift ≠ 0#64) (hw : Sound hash equal (shift + BITS) h word') :
    Aligned hash equal shift h (digits header) (left ++ word' :: right) := by
  have hd := digit_lt_width h shift
  have hset : header.getLsbD (digit h shift) = true := by
    by_contra hclear
    exact hbit ((and_bit_eq_zero hd).mpr (by simpa using hclear))
  rw [digits_of_set hset]
  exact hf.left.append (.cons (.refl _ _) rfl hw hf.right)

theorem Focused.getElem? {shift : ℕ} {header h : BitVec 64} {words left right : List (Word K V)}
    {word : Word K V} (hf : Focused hash equal shift header h words left word right) :
    words[indexOf header (bitOf h shift)]? = some word := by
  rw [hf.words, hf.index, List.getElem?_append_right (Nat.le_refl _), Nat.sub_self]
  rfl

theorem Focused.set {shift : ℕ} {header h : BitVec 64} {words left right : List (Word K V)}
    {word word' : Word K V} (hf : Focused hash equal shift header h words left word right) :
    words.set (indexOf header (bitOf h shift)) word' = left ++ word' :: right := by
  rw [hf.words, hf.index, List.set_append_right _ _ (Nat.le_refl _), Nat.sub_self]
  rfl

theorem Focused.eraseIdx {shift : ℕ} {header h : BitVec 64} {words left right : List (Word K V)}
    {word : Word K V} (hf : Focused hash equal shift header h words left word right) :
    words.eraseIdx (indexOf header (bitOf h shift)) = left ++ right := by
  rw [hf.words, hf.index, List.eraseIdx_append_of_length_le (Nat.le_refl _), Nat.sub_self]
  rfl

theorem Aligned.hash_ne {shift : ℕ} {p h : BitVec 64} {ds : List ℕ} {ws : List (Word K V)}
    (ha : Aligned hash equal shift p ds ws) (hd : digit h shift ∉ ds) :
    ∀ e ∈ ws.flatMap gather, e.hash ≠ h := by
  rintro e he rfl
  exact hd (Aligned.entries ws ha e he).2.2

theorem not_mem_below (header : BitVec 64) (d : ℕ) : d ∉ below header d := by
  simp [below]

theorem not_mem_above (header : BitVec 64) (d : ℕ) : d ∉ above header d := by
  simp [above]

theorem Focused.hash_ne {shift : ℕ} {header h : BitVec 64} {words left right : List (Word K V)}
    {word : Word K V} (hf : Focused hash equal shift header h words left word right) :
    ∀ e ∈ left.flatMap gather ++ right.flatMap gather, e.hash ≠ h := by
  intro e he
  rcases List.mem_append.mp he with he | he
  · exact hf.left.hash_ne (not_mem_below _ _) e he
  · exact hf.right.hash_ne (not_mem_above _ _) e he

theorem not_equal_of_hash_ne {h : BitVec 64} {key : K} (hh : ∀ a b, equal a b = true →
    hash a = hash b) (hkey : h = hash key) {e : Entry K V} (he : e.hash = hash e.key)
    (hne : e.hash ≠ h) : equal e.key key = false := by
  by_contra heq
  apply hne
  rw [he, hkey]
  exact hh _ _ (by simpa using heq)

theorem same_eq_false {h : BitVec 64} {key : K} (hh : ∀ a b, equal a b = true → hash a = hash b)
    (hkey : h = hash key) {e : Entry K V} (he : e.hash = hash e.key) :
    same equal e h key = false ↔ equal e.key key = false := by
  simp only [same, Bool.and_eq_false_iff, decide_eq_false_iff_not]
  constructor
  · rintro (hne | hne)
    · exact not_equal_of_hash_ne hh hkey he hne
    · exact hne
  · exact .inr

def Found (equal : K → K → Bool) (key : K) (es : List (Entry K V)) : Option (Entry K V) → Prop
  | some e => e ∈ es ∧ equal e.key key = true
  | none => ∀ e ∈ es, equal e.key key = false

theorem Found.focus {shift : ℕ} {header h : BitVec 64} {words left right : List (Word K V)}
    {word : Word K V} {key : K} {found : Option (Entry K V)}
    (hf : Focused hash equal shift header h words left word right)
    (hother : ∀ e ∈ left.flatMap gather ++ right.flatMap gather, equal e.key key = false)
    (h : Found equal key (gather word) found) : Found equal key (words.flatMap gather) found := by
  have hmem : ∀ e, e ∈ words.flatMap gather ↔
      e ∈ gather word ∨ e ∈ left.flatMap gather ++ right.flatMap gather := by
    intro e
    rw [hf.words, List.flatMap_append, List.flatMap_cons]
    simp only [List.mem_append]
    tauto
  cases found with
  | none =>
    intro e he
    rcases (hmem e).mp he with he | he
    · exact h e he
    · exact hother e he
  | some e => exact ⟨(hmem e).mpr (.inl h.1), h.2⟩

/-- The entries beside where a hash leads are under keys not equal to one of that hash. -/
theorem Focused.other_ne {shift : ℕ} {p header h : BitVec 64} {words left right : List (Word K V)}
    {word : Word K V} {key : K} (hh : ∀ a b, equal a b = true → hash a = hash b)
    (hkey : h = hash key) (hs : Sound hash equal shift p (.node header words))
    (hf : Focused hash equal shift header h words left word right) :
    ∀ e ∈ left.flatMap gather ++ right.flatMap gather, equal e.key key = false := by
  intro e he
  refine not_equal_of_hash_ne hh hkey (Sound.entries _ hs e ?_).1 (hf.hash_ne e he)
  rw [hs.gather_eq, hf.words, List.flatMap_append, List.flatMap_cons]
  simp only [List.mem_append] at he ⊢
  tauto

theorem found_entry {h : BitVec 64} {key : K} (hh : ∀ a b, equal a b = true → hash a = hash b)
    (hkey : h = hash key) {e : Entry K V} (he : e.hash = hash e.key) :
    Found equal key (gather (.entry e)) (if same equal e h key then some e else none) := by
  cases hsame : same equal e h key with
  | true =>
    simp only [same, Bool.and_eq_true] at hsame
    exact ⟨List.mem_singleton.mpr rfl, hsame.2⟩
  | false =>
    intro e' he'
    rw [gather, List.mem_singleton] at he'
    exact he' ▸ (same_eq_false hh hkey he).mp hsame

/-- Where the header has nothing for a hash, no entry is under a key equal to one of that hash. -/
theorem Aligned.clear {shift : ℕ} {p header h : BitVec 64} {words : List (Word K V)} {key : K}
    (hh : ∀ a b, equal a b = true → hash a = hash b) (hkey : h = hash key)
    (ha : Aligned hash equal shift p (digits header) words)
    (hbit : header &&& bitOf h shift = 0#64) :
    ∀ e ∈ words.flatMap gather, equal e.key key = false := by
  intro e he
  have hclear := (and_bit_eq_zero (digit_lt_width h shift)).mp hbit
  have hd : digit h shift ∉ digits header := by
    rw [mem_digits, hclear]
    simp
  exact not_equal_of_hash_ne hh hkey (Aligned.entries words ha e he).1 (ha.hash_ne hd e he)

theorem find?_side {es : List (Entry K V)} {h : BitVec 64} {key : K} :
    (es.map Word.entry).find? (sameWord equal h key) =
      (es.find? (fun e => same equal e h key)).map Word.entry := by
  rw [List.find?_map]
  rfl

theorem findFrom_found (hh : ∀ a b, equal a b = true → hash a = hash b) {h : BitVec 64} {key : K}
    (hkey : h = hash key) {shift : ℕ} {p header : BitVec 64} {words : List (Word K V)}
    (hs : Sound hash equal shift p (.node header words)) (hp : Agrees shift p h) :
    Found equal key (gather (.node header words)) (findFrom equal header words shift h key) := by
  induction hn : sizeOf words using Nat.strong_induction_on
    generalizing shift p header words with
  | _ n ih =>
    have hwords := hs.wordsOf_eq
    have hall := Sound.entries _ hs
    have hg := hs.gather_eq
    unfold findFrom
    cases hs with
    | @sideBySide _ _ es hshift hne hlen hes hpair =>
      rw [if_pos (sideBySide_side hlen), hwords, find?_side, hg, flatMap_gather_entries]
      cases hf : es.find? (fun e => same equal e h key) with
      | none =>
        intro e he
        have := List.find?_eq_none.mp hf e he
        exact (same_eq_false hh hkey (hes e he).1).mp (by simpa using this)
      | some e =>
        have hsame := List.find?_some hf
        simp only [same, Bool.and_eq_true] at hsame
        exact ⟨List.mem_of_find?_eq_some hf, hsame.2⟩
    | branch hshift hheader hdigits ha =>
      rw [if_neg (by simp [sideBySide_branch hdigits])]
      dsimp only
      split_ifs with hbit
      · rw [hg]
        exact ha.clear hh hkey hbit
      · obtain ⟨left, word, right, hf⟩ := ha.focused hp hbit
        have hget := hf.getElem?
        rw [← hwords] at hget
        rw [hg]
        refine Found.focus hf (hf.other_ne hh hkey (.branch hshift hheader hdigits ha)) ?_
        split
        · rename_i header' words' h'
          obtain rfl : word = .node header' words' := Option.some.inj (hget.symm.trans h')
          exact ih _ (hn ▸ sizeOf_lt_of_getElem? h') hf.sound (.refl _ _) rfl
        · rename_i e h'
          obtain rfl : word = .entry e := Option.some.inj (hget.symm.trans h')
          cases hf.sound with
          | entry he _ => exact found_entry hh hkey he
        · rename_i h'
          exact absurd (hget.symm.trans h') (by simp)

inductive PutOutcome (hash : K → BitVec 64) (equal : K → K → Bool) (onEqual : OnEqual) (shift : ℕ)
    (entry : Entry K V) (es : List (Entry K V)) : Put K V → Prop
  | kept {there : Entry K V} : onEqual = .keep → there ∈ es →
      equal there.key entry.key = true → PutOutcome hash equal onEqual shift entry es .kept
  | replaced {node : Node K V} {front back : List (Entry K V)} {there : Entry K V} :
      onEqual = .takeValue → es = front ++ there :: back → equal there.key entry.key = true →
      gather node.word = front ++ { there with value := entry.value } :: back →
      Sound hash equal shift entry.hash node.word →
      PutOutcome hash equal onEqual shift entry es (.replaced node)
  | added {node : Node K V} {front back : List (Entry K V)} :
      (∀ there ∈ es, equal there.key entry.key = false) → es = front ++ back →
      gather node.word = front ++ entry :: back →
      Sound hash equal shift entry.hash node.word →
      PutOutcome hash equal onEqual shift entry es (.added node)

theorem Sound.single {e : Entry K V} {shift d : ℕ} {word : Word K V} (hshift : shift < DEEPEST)
    (hd : digit e.hash shift = d) (hw : Sound hash equal (shift + BITS) e.hash word) :
    Sound hash equal shift e.hash (.node (bit d) [word]) := by
  have hdw := digit_lt_width e.hash shift
  have hdigits : digits (bit d : BitVec 64) = [d] := digits_bit (hd ▸ hdw)
  refine .branch hshift ?_ ?_ ?_
  · rw [ne_eq, ← digits_eq_nil, hdigits]
    simp
  · rw [hdigits]
    simp only [List.mem_singleton, forall_eq]
    exact hd ▸ digit_lt _ _
  · rw [hdigits]
    exact .cons (.refl _ _) hd hw .nil

/-- Two entries whose hashes part here, the one under the smaller digit first. -/
theorem Sound.pair {p : BitVec 64} {first second : Entry K V} {shift : ℕ}
    (hshift : shift < DEEPEST) (hfirst : first.hash = hash first.key)
    (hsecond : second.hash = hash second.key) (hp : Agrees shift p first.hash)
    (hp' : Agrees shift p second.hash) (hlt : digit first.hash shift < digit second.hash shift) :
    Sound hash equal shift p
      (.node (bitOf first.hash shift ||| bitOf second.hash shift)
        [.entry first, .entry second]) := by
  have hdigits := digits_two hlt (digit_lt_width second.hash shift)
  refine .branch hshift ?_ ?_ ?_
  · rw [ne_eq, ← digits_eq_nil, bitOf, bitOf, hdigits]
    simp
  · rw [bitOf, bitOf, hdigits]
    simp only [List.mem_cons, List.not_mem_nil, or_false, forall_eq_or_imp, forall_eq]
    exact ⟨digit_lt _ _, digit_lt _ _⟩
  · rw [bitOf, bitOf, hdigits]
    exact .cons hp rfl (.entry hfirst (.refl _ _))
      (.cons hp' rfl (.entry hsecond (.refl _ _)) .nil)

theorem Sound.apart {one other : Entry K V} {shift : ℕ} (hone : one.hash = hash one.key)
    (hother : other.hash = hash other.key) (hagrees : Agrees shift other.hash one.hash)
    (hne : equal one.key other.key = false) :
    Sound hash equal shift other.hash (HashTrie.apart shift one other).word ∧
      (gather (HashTrie.apart shift one other).word = [one, other] ∨
        gather (HashTrie.apart shift one other).word = [other, one]) := by
  fun_induction HashTrie.apart shift one other with
  | case1 shift hdeep =>
    have hs : Sound hash equal shift other.hash
        (.node (SIDE_BY_SIDE ||| 2#64) [.entry one, .entry other]) := by
      refine @Sound.sideBySide K V hash equal shift other.hash [one, other] hdeep (by simp)
        (by simp) ?_ ?_
      · simp only [List.mem_cons, List.not_mem_nil, or_false, forall_eq_or_imp, forall_eq]
        exact ⟨⟨hone, hagrees⟩, hother, .refl _ _⟩
      · simpa using hne
    exact ⟨hs, .inl (by rw [Node.word, hs.gather_eq]; rfl)⟩
  | case2 shift hdeep oneBit otherBit hbit ih =>
    have hd : digit one.hash shift = digit other.hash shift :=
      bit_injective (digit_lt_width _ _) (digit_lt_width _ _) hbit
    obtain ⟨hs, hg⟩ := ih (hagrees.next hd.symm)
    have hnode := Sound.single (by simpa using hdeep) hd.symm hs
    have hgather := hnode.gather_eq
    rw [List.flatMap_cons, List.flatMap_nil, List.append_nil] at hgather
    exact ⟨hnode, hg.imp hgather.trans hgather.trans⟩
  | case3 shift hdeep oneBit otherBit hbit hlt =>
    have hs : Sound hash equal shift other.hash
        (.node (oneBit ||| otherBit) [.entry one, .entry other]) :=
      .pair (by simpa using hdeep) hone hother hagrees (.refl _ _)
        ((bit_lt_bit (digit_lt_width _ _) (digit_lt_width _ _)).mp hlt)
    exact ⟨hs, .inl (by rw [Node.word, hs.gather_eq]; rfl)⟩
  | case4 shift hdeep oneBit otherBit hbit hlt =>
    have hgt : digit other.hash shift < digit one.hash shift := by
      rcases Nat.lt_trichotomy (digit one.hash shift) (digit other.hash shift) with h | h | h
      · exact absurd ((bit_lt_bit (digit_lt_width _ _) (digit_lt_width _ _)).mpr h) hlt
      · exact absurd (congrArg bit h) hbit
      · exact h
    have hs : Sound hash equal shift other.hash
        (.node (otherBit ||| oneBit) [.entry other, .entry one]) :=
      .pair (by simpa using hdeep) hother hone (.refl _ _) hagrees hgt
    rw [BitVec.or_comm] at hs
    exact ⟨hs, .inr (by rw [Node.word, hs.gather_eq]; rfl)⟩

theorem Focused.gather_eq {shift : ℕ} {header h : BitVec 64} {words left right : List (Word K V)}
    {word : Word K V} (hf : Focused hash equal shift header h words left word right) :
    words.flatMap gather =
      left.flatMap gather ++ gather word ++ right.flatMap gather := by
  rw [hf.words, List.flatMap_append, List.flatMap_cons, List.append_assoc]

/-- The node with another word where the hash leads, and the entries it lists. -/
theorem Focused.replace {shift : ℕ} {header h : BitVec 64} {words left right : List (Word K V)}
    {word word' : Word K V} (hshift : shift < DEEPEST) (hheader : header ≠ 0#64)
    (hdigits : ∀ d ∈ digits header, d < 32)
    (hf : Focused hash equal shift header h words left word right)
    (hbit : header &&& bitOf h shift ≠ 0#64) (hw : Sound hash equal (shift + BITS) h word') :
    Sound hash equal shift h
        (.node header (words.set (indexOf header (bitOf h shift)) word')) ∧
      gather (.node header (words.set (indexOf header (bitOf h shift)) word')) =
        left.flatMap gather ++ gather word' ++ right.flatMap gather := by
  have hs : Sound hash equal shift h (.node header (left ++ word' :: right)) :=
    .branch hshift hheader hdigits (hf.aligned hbit hw)
  rw [hf.set]
  refine ⟨hs, ?_⟩
  rw [hs.gather_eq, List.flatMap_append, List.flatMap_cons, List.append_assoc]

theorem PutOutcome.focus {onEqual : OnEqual} {shift : ℕ} {header : BitVec 64} {entry : Entry K V}
    {words left right : List (Word K V)} {word : Word K V} {put : Put K V}
    (hshift : shift < DEEPEST) (hheader : header ≠ 0#64) (hdigits : ∀ d ∈ digits header, d < 32)
    (hf : Focused hash equal shift header entry.hash words left word right)
    (hbit : header &&& bitOf entry.hash shift ≠ 0#64)
    (hother : ∀ e ∈ left.flatMap gather ++ right.flatMap gather,
      equal e.key entry.key = false)
    (h : PutOutcome hash equal onEqual (shift + BITS) entry (gather word) put) :
    PutOutcome hash equal onEqual shift entry (words.flatMap gather)
      (putBelow header words (indexOf header (bitOf entry.hash shift)) put) := by
  have hgather := hf.gather_eq
  cases h with
  | kept hkeep hmem heq => exact .kept hkeep (by simp [hgather, hmem]) heq
  | @replaced _ front back there htake hes heq hnode hsound =>
    obtain ⟨hs, hg⟩ := hf.replace hshift hheader hdigits hbit hsound
    refine @PutOutcome.replaced K V hash equal onEqual shift entry _ _
      (left.flatMap gather ++ front) (back ++ right.flatMap gather) there htake ?_ heq ?_ hs
    · rw [hgather, hes]
      simp [List.append_assoc]
    · rw [Node.word, hg, hnode]
      simp [List.append_assoc]
  | @added _ front back hnone hes hnode hsound =>
    obtain ⟨hs, hg⟩ := hf.replace hshift hheader hdigits hbit hsound
    refine @PutOutcome.added K V hash equal onEqual shift entry _ _
      (left.flatMap gather ++ front) (back ++ right.flatMap gather) ?_ ?_ ?_ hs
    · intro e he
      rw [hgather] at he
      simp only [List.mem_append] at he hother
      rcases he with (he | he) | he
      · exact hother e (.inl he)
      · exact hnone e he
      · exact hother e (.inr he)
    · rw [hgather, hes]
      simp [List.append_assoc]
    · rw [Node.word, hg, hnode]
      simp [List.append_assoc]

theorem insertIdx_length_append {α : Type} (left right : List α) (x : α) :
    (left ++ right).insertIdx left.length x = left ++ x :: right := by
  induction left with
  | nil => rfl
  | cons y left ih => simpa using ih

theorem findIdx?_split {α : Type} {p : α → Bool} {xs : List α} {index : ℕ}
    (h : xs.findIdx? p = some index) :
    ∃ front x back, xs = front ++ x :: back ∧ front.length = index ∧ p x = true := by
  obtain ⟨hlt, hp, -⟩ := List.findIdx?_eq_some_iff_getElem.mp h
  refine ⟨xs.take index, xs[index], xs.drop (index + 1), ?_, ?_, hp⟩
  · rw [List.cons_getElem_drop_succ, List.take_append_drop]
  · rw [List.length_take, Nat.min_eq_left (by omega)]

theorem put_clear {onEqual : OnEqual} {shift : ℕ} {p header : BitVec 64} {entry : Entry K V}
    {words : List (Word K V)} (hh : ∀ a b, equal a b = true → hash a = hash b)
    (hentry : entry.hash = hash entry.key) (hshift : shift < DEEPEST)
    (hdigits : ∀ d ∈ digits header, d < 32)
    (ha : Aligned hash equal shift p (digits header) words) (hp : Agrees shift p entry.hash)
    (hbit : header &&& bitOf entry.hash shift = 0#64) :
    PutOutcome hash equal onEqual shift entry (words.flatMap gather)
      (.added ⟨header ||| bitOf entry.hash shift,
        words.insertIdx (indexOf header (bitOf entry.hash shift)) (.entry entry)⟩) := by
  have hd := digit_lt_width entry.hash shift
  have hnone := ha.clear hh hentry hbit
  have hclear := (and_bit_eq_zero hd).mp hbit
  have hnew : digits (header ||| bitOf entry.hash shift) = _ := digits_or_bit header hd
  rw [digits_of_clear hd hclear] at ha
  obtain ⟨left, right, rfl, hleft, hright⟩ := ha.split
  have hindex : indexOf header (bitOf entry.hash shift) = left.length := by
    rw [indexOf, bitOf, rank_eq hd, hleft.length]
  have hinsert : (left ++ right).insertIdx left.length (Word.entry entry) =
      left ++ Word.entry entry :: right := insertIdx_length_append left right _
  have hs : Sound hash equal shift entry.hash
      (.node (header ||| bitOf entry.hash shift) (left ++ .entry entry :: right)) := by
    refine .branch hshift ?_ ?_ ?_
    · rw [ne_eq, ← digits_eq_nil, hnew]
      simp
    · intro d hmem
      rw [hnew] at hmem
      rw [digits_of_clear hd hclear] at hdigits
      simp only [List.mem_append, List.mem_cons] at hmem hdigits
      rcases hmem with hmem | rfl | hmem
      · exact hdigits d (.inl hmem)
      · exact digit_lt _ _
      · exact hdigits d (.inr hmem)
    · rw [hnew]
      exact (hleft.congr hp).append (.cons (.refl _ _) rfl (.entry hentry (.refl _ _))
        (hright.congr hp))
  rw [hindex, hinsert]
  refine @PutOutcome.added K V hash equal onEqual shift entry _ _
    (left.flatMap gather) (right.flatMap gather) hnone List.flatMap_append ?_ hs
  rw [Node.word, hs.gather_eq, List.flatMap_append, List.flatMap_cons]
  rfl

theorem findIdx?_side {es : List (Entry K V)} {h : BitVec 64} {key : K} :
    (es.map Word.entry).findIdx? (sameWord equal h key) =
      es.findIdx? (fun e => same equal e h key) := by
  rw [List.findIdx?_map]
  rfl

theorem put_side {onEqual : OnEqual} {shift : ℕ} {p : BitVec 64} {entry : Entry K V}
    {es : List (Entry K V)} (hh : ∀ a b, equal a b = true → hash a = hash b)
    (hentry : entry.hash = hash entry.key) (hp : Agrees shift p entry.hash)
    (hdeep : DEEPEST ≤ shift) (hne : es ≠ []) (hlen : es.length + 1 < 2 ^ 63)
    (hes : ∀ e ∈ es, e.hash = hash e.key ∧ Agrees shift p e.hash)
    (hpair : es.Pairwise (fun a b => equal a.key b.key = false)) :
    PutOutcome hash equal onEqual shift entry es
      (put equal onEqual (SIDE_BY_SIDE ||| BitVec.ofNat 64 es.length) (es.map .entry) shift
        entry) := by
  have hlen' : es.length < 2 ^ 63 := by omega
  have hs : Sound hash equal shift p
      (.node (SIDE_BY_SIDE ||| BitVec.ofNat 64 es.length) (es.map .entry)) :=
    .sideBySide hdeep hne hlen' hes hpair
  have hagrees : ∀ e ∈ es, e.hash = hash e.key ∧ Agrees shift entry.hash e.hash :=
    fun e he => ⟨(hes e he).1, hp.symm.trans (hes e he).2⟩
  unfold put
  rw [if_pos (sideBySide_side hlen')]
  dsimp only
  rw [hs.wordsOf_eq, findIdx?_side]
  cases hfind : es.findIdx? (fun e => same equal e entry.hash entry.key) with
  | none =>
    have hnone : ∀ e ∈ es, equal e.key entry.key = false := by
      intro e he
      have := List.findIdx?_eq_none_iff.mp hfind e he
      exact (same_eq_false hh hentry (hes e he).1).mp this
    have hmap : es.map Word.entry ++ [Word.entry entry] = (es ++ [entry]).map .entry := by simp
    have hnew : Sound hash equal shift entry.hash (.node
        (SIDE_BY_SIDE ||| BitVec.ofNat 64 (es ++ [entry]).length)
        ((es ++ [entry]).map .entry)) := by
      refine .sideBySide hdeep (by simp) (by simpa using hlen) ?_ ?_
      · intro e he
        rcases List.mem_append.mp he with he | he
        · exact hagrees e he
        · rw [List.mem_singleton.mp he]
          exact ⟨hentry, .refl _ _⟩
      · rw [List.pairwise_append]
        exact ⟨hpair, List.pairwise_singleton _ _,
          fun e he e' he' => by rw [List.mem_singleton.mp he']; exact hnone e he⟩
    dsimp only
    rw [hmap, List.length_map]
    refine @PutOutcome.added K V hash equal onEqual shift entry es _ es [] hnone (by simp) ?_ hnew
    rw [Node.word, hnew.gather_eq, flatMap_gather_entries]
  | some index =>
    obtain ⟨front, there, back, rfl, rfl, hsame⟩ := findIdx?_split hfind
    simp only [same, Bool.and_eq_true] at hsame
    have hget : ((front ++ there :: back).map Word.entry)[front.length]? = some (.entry there) := by
      simp
    dsimp only
    rw [hget]
    dsimp only
    cases onEqual with
    | keep => exact .kept rfl (by simp) hsame.2
    | takeValue =>
      have hset : ((front ++ there :: back).map Word.entry).set front.length
          (.entry { there with value := entry.value }) =
          (front ++ { there with value := entry.value } :: back).map .entry := by
        simp
      have hlength : (front ++ there :: back).length =
          (front ++ { there with value := entry.value } :: back).length := by simp
      have hnew : Sound hash equal shift entry.hash (.node
          (SIDE_BY_SIDE ||| BitVec.ofNat 64
            (front ++ { there with value := entry.value } :: back).length)
          ((front ++ { there with value := entry.value } :: back).map .entry)) := by
        refine .sideBySide hdeep (by simp) (hlength ▸ hlen') ?_ ?_
        · intro e he
          simp only [List.mem_append, List.mem_cons] at he hagrees
          rcases he with he | rfl | he
          · exact hagrees e (.inl he)
          · exact hagrees there (.inr (.inl rfl))
          · exact hagrees e (.inr (.inr he))
        · simpa [List.pairwise_append] using hpair
      simp only [arrivedAt, putArrived]
      rw [hset, hlength]
      refine .replaced rfl rfl hsame.2 ?_ hnew
      rw [Node.word, hnew.gather_eq, flatMap_gather_entries]

theorem put_there {onEqual : OnEqual} {shift : ℕ} {header : BitVec 64} {entry there : Entry K V}
    {words left right : List (Word K V)} (hh : ∀ a b, equal a b = true → hash a = hash b)
    (hentry : entry.hash = hash entry.key) (hshift : shift < DEEPEST) (hheader : header ≠ 0#64)
    (hdigits : ∀ d ∈ digits header, d < 32)
    (hf : Focused hash equal shift header entry.hash words left (.entry there) right)
    (hbit : header &&& bitOf entry.hash shift ≠ 0#64)
    (hother : ∀ e ∈ left.flatMap gather ++ right.flatMap gather,
      equal e.key entry.key = false) :
    PutOutcome hash equal onEqual shift entry (words.flatMap gather)
      (if there.hash = entry.hash ∧ equal there.key entry.key = true then
        putArrived header words (indexOf header (bitOf entry.hash shift))
          (arrivedAt there entry onEqual)
      else
        .added ⟨header, words.set (indexOf header (bitOf entry.hash shift))
          (apart (shift + BITS) there entry).word⟩) := by
  cases hf.sound with
  | entry hthere hagrees =>
    have hgather := hf.gather_eq
    split_ifs with hsame
    · cases onEqual with
      | keep => exact .kept rfl (by simp [hgather, gather]) hsame.2
      | takeValue =>
        obtain ⟨hs, hg⟩ := hf.replace hshift hheader hdigits hbit
          (.entry hthere hagrees : Sound hash equal (shift + BITS) entry.hash
            (.entry { there with value := entry.value }))
        refine @PutOutcome.replaced K V hash equal _ shift entry _ _ (left.flatMap gather)
          (right.flatMap gather) there rfl ?_ hsame.2 (hg.trans ?_) hs
        · simp [hgather, gather]
        · simp [gather]
    · have hne : equal there.key entry.key = false := by
        by_contra heq
        refine hsame ⟨?_, by simpa using heq⟩
        rw [hthere, hentry]
        exact hh _ _ (by simpa using heq)
      obtain ⟨hs, hg⟩ := Sound.apart hthere hentry hagrees hne
      have hnone : ∀ e ∈ gather (.entry there), equal e.key entry.key = false := by
        simpa [gather] using hne
      have hput : PutOutcome hash equal onEqual (shift + BITS) entry (gather (.entry there))
          (.added (apart (shift + BITS) there entry)) := by
        rcases hg with hg | hg
        · exact @PutOutcome.added K V hash equal onEqual _ entry _ _ [there] [] hnone rfl hg hs
        · exact @PutOutcome.added K V hash equal onEqual _ entry _ _ [] [there] hnone rfl hg hs
      exact hput.focus hshift hheader hdigits hf hbit hother

theorem length_gather_le {shift : ℕ} {header h : BitVec 64} {words left right : List (Word K V)}
    {word : Word K V} (hf : Focused hash equal shift header h words left word right) :
    (gather word).length ≤ (words.flatMap gather).length := by
  rw [hf.gather_eq]
  simp only [List.length_append]
  omega

/-- Putting an entry in does to a sound node what `PutOutcome` says. -/
theorem put_outcome {onEqual : OnEqual} {entry : Entry K V}
    (hh : ∀ a b, equal a b = true → hash a = hash b) (hentry : entry.hash = hash entry.key)
    {shift : ℕ} {p header : BitVec 64} {words : List (Word K V)}
    (hs : Sound hash equal shift p (.node header words)) (hp : Agrees shift p entry.hash)
    (hlen : (gather (.node header words)).length + 1 < 2 ^ 63) :
    PutOutcome hash equal onEqual shift entry (gather (.node header words))
      (put equal onEqual header words shift entry) := by
  induction hn : sizeOf words using Nat.strong_induction_on
    generalizing shift p header words with
  | _ n ih =>
    have hwords := hs.wordsOf_eq
    rw [hs.gather_eq] at hlen ⊢
    cases hs with
    | @sideBySide _ _ es hdeep hne _ hes hpair =>
      rw [flatMap_gather_entries] at hlen ⊢
      exact put_side hh hentry hp hdeep hne hlen hes hpair
    | branch hshift hheader hdigits ha =>
      unfold put
      rw [if_neg (by simp [sideBySide_branch hdigits])]
      dsimp only
      split_ifs with hbit
      · rw [hwords]
        exact put_clear hh hentry hshift hdigits ha hp hbit
      · obtain ⟨left, word, right, hf⟩ := ha.focused hp hbit
        have hget := hf.getElem?
        rw [← hwords] at hget
        have hother := hf.other_ne hh hentry (.branch hshift hheader hdigits ha)
        have hle := length_gather_le hf
        split
        · rename_i header' words' h'
          obtain rfl : word = .node header' words' := Option.some.inj (hget.symm.trans h')
          have hbelow := ih _ (hn ▸ sizeOf_lt_of_getElem? h') hf.sound (.refl _ _) (by omega) rfl
          rw [hwords]
          exact hbelow.focus hshift hheader hdigits hf hbit hother
        · rename_i there h'
          obtain rfl : word = .entry there := Option.some.inj (hget.symm.trans h')
          rw [hwords]
          exact put_there hh hentry hshift hheader hdigits hf hbit hother
        · rename_i h'
          exact absurd (hget.symm.trans h') (by simp)

inductive TakenOutcome (hash : K → BitVec 64) (equal : K → K → Bool) (shift : ℕ) (h : BitVec 64)
    (key : K) (es : List (Entry K V)) : Option (Option (Node K V)) → Prop
  | absent : (∀ e ∈ es, equal e.key key = false) → TakenOutcome hash equal shift h key es none
  | emptied {there : Entry K V} : es = [there] → equal there.key key = true →
      TakenOutcome hash equal shift h key es (some none)
  | left {node : Node K V} {front back : List (Entry K V)} {there : Entry K V} :
      es = front ++ there :: back → equal there.key key = true →
      gather node.word = front ++ back → Sound hash equal shift h node.word →
      TakenOutcome hash equal shift h key es (some (some node))

theorem taken_side {shift : ℕ} {p h : BitVec 64} {key : K} {es : List (Entry K V)}
    (hh : ∀ a b, equal a b = true → hash a = hash b) (hkey : h = hash key) (hp : Agrees shift p h)
    (hdeep : DEEPEST ≤ shift) (hne : es ≠ []) (hlen : es.length < 2 ^ 63)
    (hes : ∀ e ∈ es, e.hash = hash e.key ∧ Agrees shift p e.hash)
    (hpair : es.Pairwise (fun a b => equal a.key b.key = false)) :
    TakenOutcome hash equal shift h key es
      (taken equal (SIDE_BY_SIDE ||| BitVec.ofNat 64 es.length) (es.map .entry) shift h key) := by
  have hs : Sound hash equal shift p
      (.node (SIDE_BY_SIDE ||| BitVec.ofNat 64 es.length) (es.map .entry)) :=
    .sideBySide hdeep hne hlen hes hpair
  unfold taken
  rw [if_pos (sideBySide_side hlen)]
  dsimp only
  rw [hs.wordsOf_eq, findIdx?_side]
  cases hfind : es.findIdx? (fun e => same equal e h key) with
  | none =>
    refine .absent (fun e he => ?_)
    have := List.findIdx?_eq_none_iff.mp hfind e he
    exact (same_eq_false hh hkey (hes e he).1).mp this
  | some index =>
    obtain ⟨front, there, back, rfl, rfl, hsame⟩ := findIdx?_split hfind
    simp only [same, Bool.and_eq_true] at hsame
    have herase : ((front ++ there :: back).map Word.entry).eraseIdx front.length =
        (front ++ back).map .entry := by
      rw [List.map_append, List.eraseIdx_append_of_length_le (by simp)]
      simp
    dsimp only
    rw [herase]
    split_ifs with hempty
    · obtain ⟨rfl, rfl⟩ : front = [] ∧ back = [] := by simpa using hempty
      exact .emptied rfl hsame.2
    · have hnew : Sound hash equal shift h (.node
          (SIDE_BY_SIDE ||| BitVec.ofNat 64 (front ++ back).length)
          ((front ++ back).map .entry)) := by
        refine .sideBySide hdeep (by simpa using hempty) ?_ ?_ ?_
        · simp only [List.length_append, List.length_cons] at hlen ⊢
          omega
        · intro e he
          have hmem : e ∈ front ++ there :: back := by
            simp only [List.mem_append, List.mem_cons] at he ⊢
            tauto
          exact ⟨(hes e hmem).1, hp.symm.trans (hes e hmem).2⟩
        · exact hpair.sublist ((List.sublist_cons_self there back).append_left front)
      rw [List.length_map]
      refine .left rfl hsame.2 ?_ hnew
      rw [Node.word, hnew.gather_eq, flatMap_gather_entries]

/-- The node without the word where the hash leads. -/
theorem Focused.erase {shift : ℕ} {header h : BitVec 64} {words left right : List (Word K V)}
    {word : Word K V} (hshift : shift < DEEPEST) (hdigits : ∀ d ∈ digits header, d < 32)
    (hf : Focused hash equal shift header h words left word right)
    (hheader : header &&& ~~~(bitOf h shift) ≠ 0#64) :
    Sound hash equal shift h (.node (header &&& ~~~(bitOf h shift))
      (words.eraseIdx (indexOf header (bitOf h shift)))) ∧
    gather (.node (header &&& ~~~(bitOf h shift))
      (words.eraseIdx (indexOf header (bitOf h shift)))) =
        left.flatMap gather ++ right.flatMap gather := by
  have hd := digit_lt_width h shift
  have hnew : digits (header &&& ~~~(bitOf h shift)) = _ := digits_and_not_bit header hd
  have hs : Sound hash equal shift h (.node (header &&& ~~~(bitOf h shift)) (left ++ right)) := by
    refine .branch hshift hheader ?_ ?_
    · intro d hmem
      rw [hnew] at hmem
      apply hdigits
      rw [mem_digits]
      rcases List.mem_append.mp hmem with hmem | hmem
      · exact (List.mem_filter.mp hmem).2
      · exact (List.mem_filter.mp hmem).2
    · rw [hnew]
      exact hf.left.append hf.right
  rw [hf.eraseIdx]
  exact ⟨hs, by rw [hs.gather_eq, List.flatMap_append]⟩

/-- A node nothing is left of held only the word where the hash led. -/
theorem Focused.alone {shift : ℕ} {header h : BitVec 64} {words left right : List (Word K V)}
    {word : Word K V} (hf : Focused hash equal shift header h words left word right)
    (hheader : header &&& ~~~(bitOf h shift) = 0#64) : left = [] ∧ right = [] := by
  have hd := digit_lt_width h shift
  have hnew : digits (header &&& ~~~(bitOf h shift)) = _ := digits_and_not_bit header hd
  rw [hheader, digits_eq_nil.mpr rfl] at hnew
  obtain ⟨hbelow, habove⟩ := List.append_eq_nil_iff.mp hnew.symm
  have hleft := hf.left.length
  have hright := hf.right.length
  rw [hbelow, List.length_nil] at hleft
  rw [habove, List.length_nil] at hright
  exact ⟨List.length_eq_zero_iff.mp hleft, List.length_eq_zero_iff.mp hright⟩

theorem TakenOutcome.focus {shift : ℕ} {header h : BitVec 64} {key : K}
    {words left right : List (Word K V)} {word : Word K V} {below : Option (Option (Node K V))}
    (hshift : shift < DEEPEST) (hheader : header ≠ 0#64) (hdigits : ∀ d ∈ digits header, d < 32)
    (hf : Focused hash equal shift header h words left word right)
    (hbit : header &&& bitOf h shift ≠ 0#64)
    (hother : ∀ e ∈ left.flatMap gather ++ right.flatMap gather, equal e.key key = false)
    (hbelow : TakenOutcome hash equal (shift + BITS) h key (gather word) below) :
    TakenOutcome hash equal shift h key (words.flatMap gather)
      (takenBelow header words (bitOf h shift) below) := by
  have hgather := hf.gather_eq
  cases hbelow with
  | absent hnone =>
    refine .absent (fun e he => ?_)
    rw [hgather] at he
    simp only [List.mem_append] at he hother
    rcases he with (he | he) | he
    · exact hother e (.inl he)
    · exact hnone e he
    · exact hother e (.inr he)
  | @emptied there hes heq =>
    simp only [takenBelow]
    split_ifs with hzero
    · obtain ⟨rfl, rfl⟩ := hf.alone hzero
      refine .emptied ?_ heq
      simpa [hgather] using hes
    · obtain ⟨hs, hg⟩ := hf.erase hshift hdigits hzero
      refine .left ?_ heq hg hs
      rw [hgather, hes]
      simp
  | @left node front back there hes heq hnode hsound =>
    obtain ⟨hs, hg⟩ := hf.replace hshift hheader hdigits hbit hsound
    refine @TakenOutcome.left K V hash equal shift h key _ _ (left.flatMap gather ++ front)
      (back ++ right.flatMap gather) there ?_ heq ?_ hs
    · rw [hgather, hes]
      simp [List.append_assoc]
    · rw [Node.word, hg, hnode]
      simp [List.append_assoc]

/-- Taking a key out does to a sound node what `TakenOutcome` says. -/
theorem taken_outcome {h : BitVec 64} {key : K} (hh : ∀ a b, equal a b = true → hash a = hash b)
    (hkey : h = hash key) {shift : ℕ} {p header : BitVec 64} {words : List (Word K V)}
    (hs : Sound hash equal shift p (.node header words)) (hp : Agrees shift p h) :
    TakenOutcome hash equal shift h key (gather (.node header words))
      (taken equal header words shift h key) := by
  induction hn : sizeOf words using Nat.strong_induction_on
    generalizing shift p header words with
  | _ n ih =>
    have hwords := hs.wordsOf_eq
    rw [hs.gather_eq]
    cases hs with
    | @sideBySide _ _ es hdeep hne hlen hes hpair =>
      rw [flatMap_gather_entries]
      exact taken_side hh hkey hp hdeep hne hlen hes hpair
    | branch hshift hheader hdigits ha =>
      unfold taken
      rw [if_neg (by simp [sideBySide_branch hdigits])]
      dsimp only
      split_ifs with hbit
      · exact .absent (ha.clear hh hkey hbit)
      · obtain ⟨left, word, right, hf⟩ := ha.focused hp hbit
        have hget := hf.getElem?
        rw [← hwords] at hget
        have hother := hf.other_ne hh hkey (.branch hshift hheader hdigits ha)
        rw [hwords]
        refine TakenOutcome.focus hshift hheader hdigits hf hbit hother ?_
        split
        · rename_i header' words' h'
          rw [← hwords] at h'
          obtain rfl : word = .node header' words' := Option.some.inj (hget.symm.trans h')
          exact ih _ (hn ▸ sizeOf_lt_of_getElem? h') hf.sound (.refl _ _) rfl
        · rename_i there h'
          rw [← hwords] at h'
          obtain rfl : word = .entry there := Option.some.inj (hget.symm.trans h')
          cases hf.sound with
          | entry hthere hagrees =>
            cases hsame : same equal there h key with
            | true =>
              simp only [same, Bool.and_eq_true] at hsame
              exact .emptied rfl hsame.2
            | false =>
              refine .absent (fun e he => ?_)
              rw [gather, List.mem_singleton] at he
              exact he ▸ (same_eq_false hh hkey hthere).mp hsame
        · rename_i h'
          rw [← hwords] at h'
          exact absurd (hget.symm.trans h') (by simp)

end Reads

end SoutherNative.HashTrie
