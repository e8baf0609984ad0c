import SoutherNative.Normalization

set_option autoImplicit false

/-!
# Letters that come together again

A letter of normalized text is what its starter comes to as it composes with its marks, one after
another in canonical order. Among the marks that come after it a mark of a lower class may stand
before some of its own and compose in their place. Where none does, every letter comes together
again, and the text is no longer normalized than it was handed over.
-/
namespace SoutherNative.Normalization
open CanonicalData

variable {α : Type} (data : CanonicalData α)

namespace CanonicalData

/-- `b` may come after `a` in canonical order. -/
def Follows (a b : α) : Prop := data.ccc b = 0 ∨ data.ccc a ≤ data.ccc b

/-- What a starter comes to as it composes with one mark after another. -/
inductive ComposedOf : α → List α → α → Prop
  | done (a : α) : ComposedOf a [] a
  | next {starter mark both a : α} {marks : List α} :
      data.composite starter mark = some both → ComposedOf both marks a →
      ComposedOf starter (mark :: marks) a

def leading (text : List α) : List α := (data.decomposed text).takeWhile (data.ccc · ≠ 0)

/-- A mark after a letter takes it apart where it composes with the letter as far as it stands when
    the mark comes, before two more of the letter's own marks. -/
def takesApart (mark starter : α) : List α → Bool
  | a :: b :: marks =>
    if (a :: b :: marks).all (data.ccc mark < data.ccc ·) then (data.composite starter mark).isSome
    else
      match data.composite starter a with
      | some both => takesApart mark both (b :: marks)
      | none => false
  | _ => false

/-- No mark that comes after a letter, the first of its class there, takes it apart, and no letter's
    starter composes with what comes before it. -/
def Undivided : List α → Prop
  | [] => True
  | a :: text =>
    (∀ starter marks, data.decompose a = starter :: marks → marks ≠ [] →
      (∀ first, data.composite first starter = none) ∧
      ∀ mark, (data.leading text).find? (data.ccc · = data.ccc mark) = some mark →
        data.takesApart mark starter marks = false) ∧
    Undivided text

/-- Where each mark comes among others in canonical order: a letter's before those of another that
    are not of a lower class than all that is left of the letter. -/
inductive Merged : List α → List α → List α → Prop
  | nil (others : List α) : Merged [] others others
  | own {mark : α} {marks others text : List α} :
      (∀ other ∈ others, ¬ ∀ a ∈ mark :: marks, data.ccc other < data.ccc a) →
      Merged marks others text → Merged (mark :: marks) others (mark :: text)
  | other {other : α} {marks others text : List α} : marks ≠ [] →
      (∀ a ∈ marks, data.ccc other < data.ccc a) → Merged marks others text →
      Merged marks (other :: others) (other :: text)

/-- At least so many pairs compose in a text, whatever comes before it. -/
def Gives (pairs : ℕ) (text : List α) : Prop :=
  ∀ starter between, pairs ≤ data.compositionsAfter starter between text

end CanonicalData

variable {data}

section Letters

theorem CanonicalData.ComposedOf.append {starter both mark a : α} {marks : List α}
    (h : data.ComposedOf starter marks both) (hboth : data.composite both mark = some a) :
    data.ComposedOf starter (marks ++ [mark]) a := by
  induction h with
  | done => exact .next hboth (.done a)
  | next hfirst _ ih => exact .next hfirst (ih hboth)

end Letters

section Merging

theorem CanonicalData.Merged.place {mark : α} {marks others text : List α}
    (h : data.Merged marks others text) (hothers : ∀ other ∈ others, data.ccc other ≠ 0)
    (hsorted : others.Pairwise fun b c => data.ccc b ≤ data.ccc c)
    (hfollows : ∀ a ∈ marks.head?, data.Follows mark a) :
    data.Merged (mark :: marks) others (data.place mark text) := by
  induction h with
  | nil others =>
    induction others with
    | nil => exact .own (by simp) (.nil [])
    | cons other others ih =>
      have hother := hothers other List.mem_cons_self
      obtain ⟨hle, hrest⟩ := List.pairwise_cons.mp hsorted
      rw [CanonicalData.place]
      split
      · next hbefore =>
        refine .own ?_ (.nil _)
        intro c hc hall
        have hlow := hall mark List.mem_cons_self
        rcases List.mem_cons.mp hc with rfl | hc
        · omega
        · have := hle c hc
          omega
      · next hafter =>
        refine .other (by simp) ?_ (ih (fun c hc => hothers c (List.mem_cons_of_mem _ hc)) hrest)
        intro a ha
        rw [List.mem_singleton.mp ha]
        omega
  | @own next marks others text hnot hrest _ =>
    have hnext := hfollows next rfl
    rw [CanonicalData.place, if_pos (.inr hnext)]
    refine .own ?_ (.own hnot hrest)
    intro other hmem hall
    exact hnot other hmem fun a ha => hall a (List.mem_cons_of_mem mark ha)
  | @other other marks others text hne hlow hrest ih =>
    have hother := hothers other List.mem_cons_self
    obtain ⟨hle, hpairs⟩ := List.pairwise_cons.mp hsorted
    rw [CanonicalData.place]
    split
    · next hbefore =>
      refine .own ?_ (.other hne hlow hrest)
      intro c hc hall
      have := hall mark List.mem_cons_self
      rcases List.mem_cons.mp hc with rfl | hc
      · omega
      · have := hle c hc
        omega
    · next hafter =>
      refine .other (by simp) ?_
        (ih (fun c hc => hothers c (List.mem_cons_of_mem _ hc)) hpairs hfollows)
      intro a ha
      rcases List.mem_cons.mp ha with rfl | ha
      · omega
      · exact hlow a ha

end Merging

section Pairs

theorem CanonicalData.Gives.append {pairs : ℕ} {text : List α} (h : data.Gives pairs text) (front : List α) :
    data.Gives pairs (front ++ text) := by
  induction front with
  | nil => exact h
  | cons a front ih =>
    intro starter between
    rw [List.cons_append, compositionsAfter]
    split
    · exact (ih _ _).trans (Nat.le_succ _)
    · split
      · exact ih _ _
      · exact ih _ _

end Pairs

end SoutherNative.Normalization
