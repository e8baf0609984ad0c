import SoutherNative.Padding
import SoutherNative.Utf8

set_option autoImplicit false

/-!
# The pieces of a text

What taking a text apart answers, and what joining the pieces again comes to. `slice` counts code
points through the byte positions they start at, the end of the text after the last of them, and
cuts the text's bytes there.
-/
namespace SoutherNative.TextPieces
open Normalization TextOperations Utf8

def startsFrom (place : ℕ) : Text → List ℕ
  | [] => [place]
  | c :: text => place :: startsFrom (place + (String.utf8EncodeChar c).length) text

/-- `slice`, over the bytes of the text. -/
def slice (start stop : ℤ) (text : Text) : Option Bytes :=
  if start < 0 ∨ stop < 0 then none
  else if stop < start then none
  else do
    let starts := startsFrom 0 text
    let first ← starts[start.toNat]?
    let starts := starts.drop (start.toNat + 1)
    let last ← (if stop = start then some first else starts[(stop - start - 1).toNat]? : Option ℕ)
    return ((encode text).drop first).take (last - first)

/-- `split`: an empty separator splits nothing off. -/
def split (separator text : Text) : List Text :=
  if separator = [] then [text] else TextOperations.split separator text

section Slices

theorem startsFrom_getElem? (place index : ℕ) (text : Text) :
    (startsFrom place text)[index]? =
      if index ≤ text.length then some (place + (encode (text.take index)).length) else none := by
  induction text generalizing place index with
  | nil =>
    cases index with
    | zero => rfl
    | succ index => rfl
  | cons c text ih =>
    cases index with
    | zero => rfl
    | succ index =>
      rw [startsFrom, List.getElem?_cons_succ, ih]
      simp only [List.take_succ_cons, encode_cons, List.length_append, List.length_cons,
        Nat.add_le_add_iff_right, Nat.add_assoc]

theorem encode_between {low high : ℕ} (text : Text) (h : low ≤ high) :
    ((encode text).drop (encode (text.take low)).length).take
        ((encode (text.take high)).length - (encode (text.take low)).length) =
      encode ((text.drop low).take (high - low)) := by
  have hwhole : encode text = encode (text.take low) ++ encode (text.drop low) := by
    rw [← encode_append, List.take_append_drop]
  have hrest : encode (text.drop low) =
      encode ((text.drop low).take (high - low)) ++ encode ((text.drop low).drop (high - low)) := by
    rw [← encode_append, List.take_append_drop]
  have hhigh : text.take high = text.take low ++ (text.drop low).take (high - low) := by
    rw [← List.take_append_drop low (text.take high), List.take_take, List.drop_take,
      Nat.min_eq_left h]
  rw [hhigh, encode_append, List.length_append, Nat.add_sub_cancel_left, hwhole, List.drop_left,
    hrest, List.take_left]

/-- A slice is answered exactly where its indices are the text's, and then the code points
between. -/
theorem slice_eq_some {start stop : ℤ} {text : Text} {bytes : Bytes} :
    slice start stop text = some bytes ↔
      (0 ≤ start ∧ start ≤ stop ∧ stop ≤ codePoints text) ∧
        bytes = encode ((text.drop start.toNat).take (stop - start).toNat) := by
  by_cases hneg : start < 0 ∨ stop < 0
  · rw [slice, if_pos hneg]
    constructor
    · intro h
      cases h
    · rintro ⟨⟨hlow, hle, -⟩, -⟩
      omega
  by_cases hback : stop < start
  · rw [slice, if_neg hneg, if_pos hback]
    constructor
    · intro h
      cases h
    · rintro ⟨⟨-, hle, -⟩, -⟩
      omega
  obtain ⟨low, rfl⟩ := Int.eq_ofNat_of_zero_le (show 0 ≤ start by omega)
  obtain ⟨high, rfl⟩ := Int.eq_ofNat_of_zero_le (show 0 ≤ stop by omega)
  have hle : low ≤ high := by omega
  have hlength : ((high : ℤ) - low).toNat = high - low := by omega
  rw [slice, if_neg hneg, if_neg hback, hlength, codePoints]
  simp only [Int.toNat_natCast, Option.bind_eq_bind]
  rw [startsFrom_getElem?]
  by_cases hlow : low ≤ text.length
  · rw [if_pos hlow, Option.bind_some, Nat.zero_add]
    -- the last is the start of the code point at `stop`, whether it is counted or is the first
    have hlast : (if (high : ℤ) = low then some (encode (text.take low)).length else
        ((startsFrom 0 text).drop (low + 1))[((high : ℤ) - low - 1).toNat]?) =
        if high ≤ text.length then some (encode (text.take high)).length else none := by
      by_cases hsame : high = low
      · rw [if_pos (by omega), if_pos (by omega), hsame]
      · have hplace : low + 1 + ((high : ℤ) - low - 1).toNat = high := by omega
        rw [if_neg (by omega), List.getElem?_drop, hplace, startsFrom_getElem?, Nat.zero_add]
    rw [hlast]
    by_cases hhigh : high ≤ text.length
    · rw [if_pos hhigh, Option.bind_some, encode_between text hle]
      simp only [pure, Option.some.injEq]
      constructor
      · rintro rfl
        exact ⟨⟨by omega, by omega, by omega⟩, rfl⟩
      · rintro ⟨-, rfl⟩
        rfl
    · rw [if_neg hhigh]
      constructor
      · intro h
        cases h
      · rintro ⟨⟨-, -, hin⟩, -⟩
        omega
  · rw [if_neg hlow]
    constructor
    · intro h
      cases h
    · rintro ⟨⟨-, -, hin⟩, -⟩
      omega

end Slices

section Splits

variable {target : Text}

theorem splitFrom_ne_nil (skip : ℕ) (piece text : Text) : splitFrom target skip piece text ≠ [] := by
  fun_induction splitFrom target skip piece text with
  | case1 => nofun
  | case2 skip piece a text ih => exact ih
  | case3 => nofun
  | case4 piece a text hno ih => exact ih

theorem flatten_intersperse_cons (separator piece : Text) {pieces : List Text} (h : pieces ≠ []) :
    ((piece :: pieces).intersperse separator).flatten =
      piece ++ separator ++ (pieces.intersperse separator).flatten := by
  obtain ⟨other, rest, rfl⟩ := List.exists_cons_of_ne_nil h
  simp [List.intersperse]

theorem flatten_splitFrom (skip : ℕ) (piece text : Text) (htarget : target ≠ []) :
    ((splitFrom target skip piece text).intersperse target).flatten = piece ++ text.drop skip := by
  fun_induction splitFrom target skip piece text with
  | case1 => simp
  | case2 skip piece a text ih => exact ih
  | case3 piece a text hfound ih =>
    obtain ⟨rest, hrest⟩ := List.isPrefixOf_iff_prefix.mp hfound
    have hpos := List.length_pos_iff.mpr htarget
    have hdrop : text.drop (target.length - 1) = rest := by
      have hwhole := congrArg (List.drop target.length) hrest
      rw [List.drop_left, ← Nat.succ_pred_eq_of_pos hpos] at hwhole
      exact hwhole.symm
    rw [flatten_intersperse_cons _ _ (splitFrom_ne_nil _ _ _), ih, List.nil_append, hdrop,
      List.append_assoc, hrest]
    rfl
  | case4 piece a text hno ih =>
    rw [ih]
    simp

def Clear (target piece text : Text) : Prop :=
  ∀ place < piece.length, ¬target <+: piece.drop place ++ text

theorem Clear.not_inside {piece text : Text} (htarget : target ≠ []) (h : Clear target piece text) :
    ¬target <:+: piece := by
  rintro ⟨front, back, rfl⟩
  have hpos := List.length_pos_iff.mpr htarget
  apply h front.length
  · rw [List.length_append, List.length_append]
    omega
  · rw [List.append_assoc, List.drop_left, List.append_assoc]
    exact List.prefix_append _ _

theorem Clear.next {piece text : Text} {a : Char} (h : Clear target piece (a :: text))
    (hno : ¬target <+: a :: text) : Clear target (piece ++ [a]) text := by
  intro place hplace
  rw [List.length_append, List.length_singleton] at hplace
  rw [List.drop_append_of_le_length (by omega), List.append_assoc, List.singleton_append]
  rcases Nat.lt_succ_iff_lt_or_eq.mp hplace with hlt | rfl
  · exact h place hlt
  · rwa [List.drop_length, List.nil_append]

theorem splitFrom_clear (htarget : target ≠ []) (skip : ℕ) (piece text : Text)
    (h : skip = 0 → Clear target piece text) (hskip : 0 < skip → piece = []) :
    ∀ part ∈ splitFrom target skip piece text, ¬target <:+: part := by
  have hempty : ∀ rest : Text, Clear target [] rest := fun _ _ hplace => absurd hplace (by simp)
  fun_induction splitFrom target skip piece text with
  | case1 skip piece =>
    intro part hpart
    obtain rfl := List.mem_singleton.mp hpart
    rcases Nat.eq_zero_or_pos skip with hzero | hpos
    · exact (h hzero).not_inside htarget
    · rw [hskip hpos]
      exact (hempty []).not_inside htarget
  | case2 skip piece a text ih =>
    have hpiece := hskip (Nat.succ_pos skip)
    subst hpiece
    exact ih (fun _ => hempty text) (fun _ => rfl)
  | case3 piece a text hfound ih =>
    intro part hpart
    rcases List.mem_cons.mp hpart with rfl | hpart
    · exact (h rfl).not_inside htarget
    · exact ih (fun _ => hempty text) (fun _ => rfl) part hpart
  | case4 piece a text hno ih =>
    exact ih (fun _ => (h rfl).next (hno ∘ List.isPrefixOf_iff_prefix.mpr)) (fun h => absurd h (by simp))

end Splits

section Joins

variable {data : CanonicalData Char} {text : Text} {capacity : Capacity}

theorem fits_of_flatten {runs : List Text} (h : runs.flatten = text)
    (hcapacity : codePoints text ≤ capacity.codePoints) : Fits capacity runs := by
  intro _
  rw [handedOver, h, Capacity.holds, decide_eq_true_eq]
  exact (min_le_left _ _).trans hcapacity

theorem join_split (htext : InNfc data text) (hcapacity : codePoints text ≤ capacity.codePoints)
    {separator : Text} (hseparator : separator ≠ []) :
    join data separator (TextOperations.split separator text) capacity = some text := by
  have hflatten := flatten_splitFrom 0 [] text hseparator
  apply (join_eq_some _ _ _ _).mpr
  rw [TextOperations.split, hflatten]
  exact ⟨fits_of_flatten hflatten hcapacity, htext.symm⟩

theorem append_between (hcapacity : codePoints text ≤ capacity.codePoints)
    (hpieces : ∀ piece, piece <:+: text → InNfc data piece) {low middle high : ℕ}
    (hlow : low ≤ middle) (hhigh : middle ≤ high) :
    append data ((text.drop low).take (middle - low)) ((text.drop middle).take (high - middle))
      capacity = some ((text.drop low).take (high - low)) := by
  have hjoined : (text.drop low).take (middle - low) ++ (text.drop middle).take (high - middle) =
      (text.drop low).take (high - low) := by
    have hsplit : high - low = middle - low + (high - middle) := by omega
    have hplace : low + (middle - low) = middle := by omega
    rw [hsplit, List.take_add, List.drop_drop, hplace]
  have hinfix : (text.drop low).take (high - low) <:+: text :=
    (List.take_prefix _ _).isInfix.trans (List.drop_suffix _ _).isInfix
  have hshort : codePoints ((text.drop low).take (high - low)) ≤ capacity.codePoints := by
    have hle := hinfix.length_le
    rw [codePoints] at hcapacity ⊢
    omega
  have hflatten : [(text.drop low).take (middle - low),
      (text.drop middle).take (high - middle)].flatten = (text.drop low).take (high - low) := by
    rw [← hjoined]
    simp
  apply (join_nil_eq_some _ _ _).mpr
  rw [hflatten]
  exact ⟨fits_of_flatten hflatten hshort, (hpieces _ hinfix).symm⟩

end Joins

/-- The pieces a text is split to, joined with what they were split at, are the text, and none of
them holds it; a target replaced by itself is the text. A slice is answered exactly at the text's
indices, and two that meet are joined to the slice from the first's start to the second's end. -/
theorem pieces_come_back {data : CanonicalData Char} {text : Text} {capacity : Capacity}
    (htext : InNfc data text) (hcapacity : codePoints text ≤ capacity.codePoints)
    (hpieces : ∀ piece, piece <:+: text → InNfc data piece) :
    (∀ separator, separator ≠ [] → join data separator (split separator text) capacity = some text ∧
      ∀ piece ∈ split separator text, ¬separator <:+: piece) ∧
    (∀ target, replace data target target text capacity = some text) ∧
    (∀ start stop bytes, slice start stop text = some bytes ↔
      (0 ≤ start ∧ start ≤ stop ∧ stop ≤ codePoints text) ∧
        bytes = encode ((text.drop start.toNat).take (stop - start).toNat)) ∧
    ∀ a b c, 0 ≤ a → a ≤ b → b ≤ c → c ≤ codePoints text → ∃ one other both,
      slice a b text = some (encode one) ∧ slice b c text = some (encode other) ∧
        append data one other capacity = some both ∧ slice a c text = some (encode both) := by
  refine ⟨?_, ?_, fun _ _ _ => slice_eq_some, ?_⟩
  · intro separator hseparator
    rw [split, if_neg hseparator]
    refine ⟨join_split htext hcapacity hseparator, ?_⟩
    apply splitFrom_clear hseparator
    · exact fun _ _ hplace => absurd hplace (by simp)
    · exact fun h => absurd h (by simp)
  · intro target
    rw [replace]
    split_ifs with hempty
    · rfl
    · exact join_split htext hcapacity hempty
  · intro a b c ha hab hbc hc
    refine ⟨_, _, _, slice_eq_some.mpr ⟨⟨ha, hab, by omega⟩, rfl⟩,
      slice_eq_some.mpr ⟨⟨by omega, hbc, hc⟩, rfl⟩, ?_,
      slice_eq_some.mpr ⟨⟨ha, by omega, hc⟩, rfl⟩⟩
    have hone : (b - a).toNat = b.toNat - a.toNat := by omega
    have hother : (c - b).toNat = c.toNat - b.toNat := by omega
    have hboth : (c - a).toNat = c.toNat - a.toNat := by omega
    rw [hone, hother, hboth]
    exact append_between hcapacity hpieces (by omega) (by omega)

/-- Letters with an empty piece between two of their separators. -/
theorem pieces_come_back_letters :
    join marked ['-'] (split ['-'] ['b', '-', '-', 'a']) ⟨4⟩ = some ['b', '-', '-', 'a'] := by
  have hstands : ∀ c ∈ ['b', '-', '-', 'a'], StandsApart marked c := by
    intro c hc
    have hplain : marked.decompose c = [c] ∧ marked.ccc c = 0 ∧
        ∀ first, marked.composite first c = none := by
      simp only [List.mem_cons, List.not_mem_nil, or_false] at hc
      rcases hc with rfl | rfl | rfl | rfl <;>
        exact ⟨rfl, rfl, fun first => by simp [marked, compositeMarked]⟩
    refine ⟨?_, ?_⟩
    · simp [InNfc, CanonicalData.nfc, CanonicalData.nfd, CanonicalData.decomposed,
        CanonicalData.ordered, CanonicalData.place, CanonicalData.composed,
        CanonicalData.composedAfter, hplain]
    · intro first hfirst
      simp only [CanonicalData.decomposed, List.flatMap_cons, List.flatMap_nil, hplain.1,
        List.append_nil, List.head?_cons, Option.mem_def, Option.some.injEq] at hfirst
      exact hfirst ▸ hplain.2
  have hpieces : ∀ piece, piece <:+: ['b', '-', '-', 'a'] → InNfc marked piece :=
    fun piece hpiece => nfc_standing fun c hc => hstands c (hpiece.subset hc)
  exact ((pieces_come_back (nfc_standing hstands) (by decide) hpieces).1 ['-'] (by decide)).1

end SoutherNative.TextPieces
