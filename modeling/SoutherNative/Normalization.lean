import Mathlib

set_option autoImplicit false

/-!
# Canonical normalization

The Unicode normalization forms over any table of canonical decompositions, combining classes and
primary composites. Text is taken apart, its marks are put in canonical order, and what composes is
composed: each step as the standard's own algorithm takes it. What is proved of it is what joining
normalized texts rests on: normalizing a part first changes nothing, and the composed form is as
much shorter than the decomposed one as there were compositions.
-/
namespace SoutherNative.Normalization

/-- A table of canonical data: the full decomposition of a code point, its combining class (nought
    for a starter), and the primary composite of two. -/
structure CanonicalData (α : Type) where
  decompose : α → List α
  ccc : α → ℕ
  composite : α → α → Option α
  decompose_ne_nil : ∀ a, decompose a ≠ []
  decompose_full : ∀ a, ∀ d ∈ decompose a, decompose d = [d]
  decompose_composite : ∀ first second both, composite first second = some both →
    decompose both = decompose first ++ decompose second

variable {α : Type} (data : CanonicalData α)

namespace CanonicalData

def decomposed (text : List α) : List α := text.flatMap data.decompose

/-- The mark put among the marks before `text`'s first starter, before those of its own class. -/
def place (a : α) : List α → List α
  | [] => [a]
  | b :: text =>
    if data.ccc a = 0 ∨ data.ccc b = 0 ∨ data.ccc a ≤ data.ccc b then a :: b :: text
    else b :: place a text

def ordered (text : List α) : List α := text.foldr data.place []

/-- Whether a mark or starter between a starter and `a` stops the two composing. -/
def blocked (between : List α) (a : α) : Bool :=
  between.any (fun b => data.ccc b = 0 || data.ccc a ≤ data.ccc b)

/-- The composite of the last starter and `a`, where they are a pair and nothing blocks them. -/
def composes (starter : α) (between : List α) (a : α) : Option α :=
  if data.blocked between a then none else data.composite starter a

def composedAfter (starter : α) (between : List α) : List α → List α
  | [] => starter :: between
  | a :: text =>
    match data.composes starter between a with
    | some both => composedAfter both between text
    | none =>
      if data.ccc a = 0 then starter :: between ++ composedAfter a [] text
      else composedAfter starter (between ++ [a]) text

def composed : List α → List α
  | [] => []
  | a :: text => if data.ccc a = 0 then data.composedAfter a [] text else a :: composed text

def compositionsAfter (starter : α) (between : List α) : List α → ℕ
  | [] => 0
  | a :: text =>
    match data.composes starter between a with
    | some both => compositionsAfter both between text + 1
    | none =>
      if data.ccc a = 0 then compositionsAfter a [] text
      else compositionsAfter starter (between ++ [a]) text

def compositions : List α → ℕ
  | [] => 0
  | a :: text => if data.ccc a = 0 then data.compositionsAfter a [] text else compositions text

def nfd (text : List α) : List α := data.ordered (data.decomposed text)

def nfc (text : List α) : List α := data.composed (data.nfd text)

def takenApart (text : List α) : ℕ :=
  (text.map (fun a => (data.decompose a).length - 1)).sum

def putTogether (text : List α) : ℕ := data.compositions (data.nfd text)

end CanonicalData

open CanonicalData

variable {data}

theorem decomposed_append (a b : List α) :
    data.decomposed (a ++ b) = data.decomposed a ++ data.decomposed b :=
  List.flatMap_append

theorem decompose_of_mem_decomposed {text : List α} {a : α} (h : a ∈ data.decomposed text) :
    data.decompose a = [a] := by
  obtain ⟨b, -, hab⟩ := List.mem_flatMap.mp h
  exact data.decompose_full b a hab

theorem decomposed_eq_self {text : List α} (h : ∀ a ∈ text, data.decompose a = [a]) :
    data.decomposed text = text := by
  induction text with
  | nil => rfl
  | cons a text ih =>
    have ha := h a List.mem_cons_self
    have htext := ih (fun b hb => h b (List.mem_cons_of_mem a hb))
    simp only [decomposed, List.flatMap_cons, ha] at htext ⊢
    simp [htext]

section Order

theorem place_perm (a : α) (text : List α) : (data.place a text).Perm (a :: text) := by
  induction text with
  | nil => exact List.Perm.refl _
  | cons b text ih =>
    simp only [place]
    split
    · exact List.Perm.refl _
    · exact (ih.cons b).trans (List.Perm.swap a b text)

theorem ordered_perm (text : List α) : (data.ordered text).Perm text := by
  induction text with
  | nil => exact List.Perm.refl _
  | cons a text ih => exact (place_perm a _).trans (ih.cons a)

theorem place_comm {a b : α} (ha : data.ccc a ≠ 0) (hb : data.ccc b ≠ 0)
    (hab : data.ccc a ≠ data.ccc b) (text : List α) :
    data.place a (data.place b text) = data.place b (data.place a text) := by
  induction text with
  | nil =>
    simp only [place]
    split <;> split <;> first | rfl | omega
  | cons c text ih =>
    simp only [place]
    split <;> split <;> simp only [place]
    · split <;> split <;> first | rfl | omega
    · split <;> first | rfl | omega
    · split <;> first | omega | (split <;> first | rfl | omega)
    · rw [if_neg ‹_›, if_neg ‹_›, ih]

theorem foldr_place_place (a : α) (text rest : List α) :
    (data.place a text).foldr data.place rest = data.place a (text.foldr data.place rest) := by
  induction text with
  | nil => rfl
  | cons b text ih =>
    simp only [place]
    split
    · rfl
    · next h =>
      have ha : data.ccc a ≠ 0 := by omega
      have hb : data.ccc b ≠ 0 := by omega
      rw [List.foldr_cons, ih, List.foldr_cons, place_comm ha hb (by omega)]

theorem ordered_cons (a : α) (text : List α) :
    data.ordered (a :: text) = data.place a (data.ordered text) := rfl

theorem ordered_append (a b : List α) :
    data.ordered (a ++ b) = a.foldr data.place (data.ordered b) := by
  simp only [ordered, List.foldr_append]

theorem ordered_ordered_append (a b : List α) :
    data.ordered (data.ordered a ++ b) = data.ordered (a ++ b) := by
  induction a with
  | nil => rfl
  | cons c a ih =>
    rw [ordered_append, ordered_cons, foldr_place_place, ← ordered_append, ih]
    rfl

theorem ordered_ordered (text : List α) : data.ordered (data.ordered text) = data.ordered text := by
  simpa using ordered_ordered_append text []

theorem ordered_append_congr (front : List α) {a b : List α} (h : data.ordered a = data.ordered b) :
    data.ordered (front ++ a) = data.ordered (front ++ b) := by
  rw [ordered_append, ordered_append, h]

/-- A mark that nothing of its class or above stands before may stand before all of them. -/
theorem ordered_move {a : α} {between : List α} (h : data.blocked between a = false)
    (rest : List α) :
    data.ordered (between ++ a :: rest) = data.ordered (a :: between ++ rest) := by
  induction between with
  | nil => rfl
  | cons b between ih =>
    simp only [blocked, List.any_cons, Bool.or_eq_false_iff, decide_eq_false_iff_not] at h
    have hb : data.ccc b ≠ 0 := h.1.1
    have hab : ¬ data.ccc a ≤ data.ccc b := h.1.2
    calc data.ordered (b :: between ++ a :: rest)
        = data.place b (data.ordered (between ++ a :: rest)) := rfl
      _ = data.place b (data.place a (data.ordered (between ++ rest))) := by rw [ih h.2]; rfl
      _ = data.place a (data.place b (data.ordered (between ++ rest))) :=
        place_comm hb (by omega) (by omega) _

end Order

section Composition

theorem composes_eq_some {starter a both : α} {between : List α}
    (h : data.composes starter between a = some both) :
    data.blocked between a = false ∧ data.composite starter a = some both := by
  simp only [composes] at h
  split at h
  · cases h
  · next hblocked => exact ⟨by simpa using hblocked, h⟩

theorem ordered_decomposed_composedAfter (starter : α) (between text : List α)
    (hbetween : ∀ a ∈ between, data.decompose a = [a]) (htext : ∀ a ∈ text, data.decompose a = [a]) :
    data.ordered (data.decomposed (data.composedAfter starter between text)) =
      data.ordered (data.decompose starter ++ between ++ text) := by
  induction text generalizing starter between with
  | nil =>
    simp only [composedAfter, List.append_nil]
    rw [← List.singleton_append, decomposed_append, decomposed_eq_self hbetween]
    simp [decomposed]
  | cons a text ih =>
    have ha := htext a List.mem_cons_self
    have hrest : ∀ b ∈ text, data.decompose b = [b] :=
      fun b hb => htext b (List.mem_cons_of_mem a hb)
    simp only [composedAfter]
    split
    · next both hboth =>
      obtain ⟨hfree, hcomposite⟩ := composes_eq_some hboth
      rw [ih both between hbetween hrest, data.decompose_composite _ _ _ hcomposite, ha]
      have hmove := ordered_append_congr (data.decompose starter) (ordered_move hfree text)
      simpa using hmove.symm
    · split
      · have hmain := ih a [] (by simp) hrest
        rw [ha] at hmain
        rw [decomposed_append, ← List.singleton_append, decomposed_append,
          decomposed_eq_self hbetween, List.append_assoc, List.append_assoc]
        have hstarter : data.decomposed [starter] = data.decompose starter := by simp [decomposed]
        rw [hstarter]
        exact ordered_append_congr _ (ordered_append_congr _ (by simpa using hmain))
      · have hmarks : ∀ b ∈ between ++ [a], data.decompose b = [b] := by
          intro b hb
          rcases List.mem_append.mp hb with hb | hb
          · exact hbetween b hb
          · rw [List.mem_singleton.mp hb]
            exact ha
        rw [ih starter (between ++ [a]) hmarks hrest]
        simp

theorem ordered_decomposed_composed (text : List α) (htext : ∀ a ∈ text, data.decompose a = [a]) :
    data.ordered (data.decomposed (data.composed text)) = data.ordered text := by
  induction text with
  | nil => rfl
  | cons a text ih =>
    have ha := htext a List.mem_cons_self
    have hrest : ∀ b ∈ text, data.decompose b = [b] :=
      fun b hb => htext b (List.mem_cons_of_mem a hb)
    simp only [composed]
    split
    · have hmain := ordered_decomposed_composedAfter a [] text (by simp) hrest
      rw [hmain, ha]
      rfl
    · have hsplit : data.decomposed (a :: data.composed text) =
          a :: data.decomposed (data.composed text) := by
        simp [decomposed, ha]
      rw [hsplit, ordered_cons, ih hrest, ordered_cons]

end Composition

section Forms

theorem mem_nfd {text : List α} {a : α} (h : a ∈ data.nfd text) : data.decompose a = [a] :=
  decompose_of_mem_decomposed ((ordered_perm _).mem_iff.mp h)

theorem nfd_nfc (text : List α) : data.nfd (data.nfc text) = data.nfd text := by
  have h := ordered_decomposed_composed (data.nfd text) (fun a ha => mem_nfd ha)
  calc data.nfd (data.nfc text) = data.ordered (data.nfd text) := h
    _ = data.nfd text := ordered_ordered _

/-- Normalizing a beginning first changes nothing. -/
theorem nfc_nfc_append (a b : List α) : data.nfc (data.nfc a ++ b) = data.nfc (a ++ b) := by
  have hnfd : data.nfd (data.nfc a ++ b) = data.nfd (a ++ b) := by
    calc data.nfd (data.nfc a ++ b)
        = data.ordered (data.decomposed (data.nfc a) ++ data.decomposed b) := by
          rw [nfd, decomposed_append]
      _ = data.ordered (data.nfd (data.nfc a) ++ data.decomposed b) :=
          (ordered_ordered_append _ _).symm
      _ = data.ordered (data.nfd a ++ data.decomposed b) := by rw [nfd_nfc]
      _ = data.ordered (data.decomposed a ++ data.decomposed b) := ordered_ordered_append _ _
      _ = data.nfd (a ++ b) := by rw [nfd, decomposed_append]
  simp only [nfc] at hnfd ⊢
  rw [hnfd]

end Forms

section Seams

def BeginsApart (data : CanonicalData α) (text : List α) : Prop :=
  ∀ a ∈ (data.decomposed text).head?, data.ccc a = 0 ∧ ∀ first, data.composite first a = none

theorem place_append {a b : α} (hb : data.ccc b = 0) (front text : List α) :
    data.place a (front ++ b :: text) = data.place a front ++ b :: text := by
  induction front with
  | nil =>
    simp only [List.nil_append, place, hb, true_or, or_true, if_true]
    rfl
  | cons c front ih =>
    rw [List.cons_append, place, place]
    split
    · rfl
    · rw [ih, List.cons_append]

theorem ordered_append_starter {b : α} (hb : data.ccc b = 0) (front text : List α) :
    data.ordered (front ++ b :: text) = data.ordered front ++ b :: data.ordered text := by
  induction front with
  | nil =>
    rw [List.nil_append, ordered_cons]
    cases data.ordered text with
    | nil => rfl
    | cons c text =>
      rw [place, if_pos (.inl hb)]
      rfl
  | cons a front ih => rw [List.cons_append, ordered_cons, ordered_cons, ih, place_append hb]

theorem composedAfter_append {b : α} (hb : data.ccc b = 0)
    (hfirst : ∀ first, data.composite first b = none) (starter : α)
    (between front text : List α) :
    data.composedAfter starter between (front ++ b :: text) =
      data.composedAfter starter between front ++ data.composedAfter b [] text := by
  induction front generalizing starter between with
  | nil =>
    have hnone : data.composes starter between b = none := by
      rw [composes]
      split
      · rfl
      · exact hfirst starter
    simp only [List.nil_append, composedAfter, hnone, hb, if_true]
  | cons a front ih =>
    rw [List.cons_append, composedAfter, composedAfter]
    split
    · exact ih _ _
    · split
      · rw [ih, List.append_assoc]
      · exact ih _ _

theorem composed_append {b : α} (hb : data.ccc b = 0)
    (hfirst : ∀ first, data.composite first b = none) (front text : List α) :
    data.composed (front ++ b :: text) = data.composed front ++ data.composed (b :: text) := by
  have hstart : data.composed (b :: text) = data.composedAfter b [] text := by
    rw [composed, if_pos hb]
  induction front with
  | nil => rfl
  | cons a front ih =>
    rw [List.cons_append, composed, composed]
    split
    · rw [composedAfter_append hb hfirst, hstart]
    · rw [ih, List.cons_append]

/-- A text that begins apart is normalized by itself wherever it stands. -/
theorem nfc_append {a b : List α} (h : BeginsApart data b) :
    data.nfc (a ++ b) = data.nfc a ++ data.nfc b := by
  rw [nfc, nfc, nfc, nfd, nfd, nfd, decomposed_append]
  cases hb : data.decomposed b with
  | nil =>
    have hnil : data.composed (data.ordered []) = [] := rfl
    rw [List.append_nil, hnil, List.append_nil]
  | cons first rest =>
    rw [BeginsApart, hb] at h
    obtain ⟨hstarter, hfirst⟩ := h first rfl
    have halone := ordered_append_starter hstarter [] rest
    rw [List.nil_append] at halone
    rw [ordered_append_starter hstarter, halone]
    exact composed_append hstarter hfirst _ _

end Seams

end SoutherNative.Normalization
