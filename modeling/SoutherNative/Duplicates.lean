import Mathlib
import SoutherNative.Collection

set_option autoImplicit false

/-!
# What a list repeats

`souther_list_duplicates` walks a list with a trie of the elements met and a trie of those met again.
What it answers is told by how many elements equal to one stand before it.
-/
namespace SoutherNative.Collection
open HashTrie AssociationList Simulation

variable {K : Type}

structure Walked (K : Type) where
  seen : Set K
  again : Set K
  repeated : List K

section Functions

variable (hash : K → BitVec 64) (equal : K → K → Bool)

/-- One turn of the loop of `souther_list_duplicates`. -/
def duplicatesTurn (walked : Walked K) (element : K) : Walked K :=
  let entry := member hash element
  if (walked.seen.find equal entry.hash element).isNone then
    { walked with seen := walked.seen.with equal entry .keep }
  else if (walked.again.find equal entry.hash element).isNone then
    { walked with
      again := walked.again.with equal entry .keep
      repeated := walked.repeated ++ [element] }
  else walked

def listDuplicates (list : HeldList K) : List K :=
  (list.elements.foldl (duplicatesTurn hash equal) ⟨EMPTY, EMPTY, []⟩).repeated

def occurrences (elements : List K) (element : K) : ℕ :=
  elements.countP fun other => equal other element

def secondOccurrences (elements : List K) : List K :=
  (elements.zipIdx.filter fun it =>
    occurrences equal (elements.take it.2) it.1 = 1).map Prod.fst

end Functions

section Occurrences

variable {equal : K → K → Bool}

theorem occurrences_append (front back : List K) (element : K) :
    occurrences equal (front ++ back) element =
      occurrences equal front element + occurrences equal back element := List.countP_append

theorem occurrences_one (other element : K) :
    occurrences equal [other] element = if equal other element = true then 1 else 0 := by
  rw [occurrences, List.countP_singleton]

theorem any_iff_occurrences (elements : List K) (element : K) :
    (elements.any fun other => equal other element) = true ↔
      0 < occurrences equal elements element := by
  rw [occurrences, List.countP_pos_iff, List.any_eq_true]

theorem secondOccurrences_append (elements : List K) (element : K) :
    secondOccurrences equal (elements ++ [element]) = secondOccurrences equal elements ++
      if occurrences equal elements element = 1 then [element] else [] := by
  have hbefore : ∀ it ∈ elements.zipIdx,
      decide (occurrences equal ((elements ++ [element]).take it.2) it.1 = 1) =
        decide (occurrences equal (elements.take it.2) it.1 = 1) := by
    intro it hit
    have hplace := (List.mem_zipIdx hit).2.1
    rw [Nat.zero_add] at hplace
    rw [List.take_append_of_le_length hplace.le]
  rw [secondOccurrences, List.zipIdx_append, List.filter_append, List.map_append,
    List.filter_congr hbefore, secondOccurrences]
  congr 1
  rw [List.zipIdx_singleton, Nat.zero_add, List.filter_singleton, List.take_left]
  by_cases h : occurrences equal elements element = 1
  · rw [if_pos h, decide_eq_true h]
    rfl
  · rw [if_neg h, decide_eq_false h]
    rfl

theorem length_secondOccurrences (elements : List K) :
    (secondOccurrences equal elements).length ≤ elements.length := by
  rw [secondOccurrences, List.length_map]
  exact (List.length_filter_le _ _).trans List.length_zipIdx.le

variable (he : Equivalence (fun a b => equal a b = true))

include he

theorem occurrences_congr {one other : K} (h : equal one other = true) (elements : List K) :
    occurrences equal elements one = occurrences equal elements other := by
  rw [occurrences, occurrences]
  apply List.countP_congr
  intro element _
  exact ⟨fun hone => he.trans hone h, fun hother => he.trans hother (he.symm h)⟩

theorem any_append_met {elements : List K} {element : K}
    (hmet : (elements.any fun other => equal other element) = true) (other : K) :
    ((elements ++ [element]).any fun member => equal member other) =
      elements.any fun member => equal member other := by
  rw [List.any_append]
  cases hother : equal element other with
  | false => simp [hother]
  | true =>
    have hpos := (any_iff_occurrences elements element).mp hmet
    rw [occurrences_congr he hother] at hpos
    rw [(any_iff_occurrences elements other).mpr hpos]
    rfl

theorem any_secondOccurrences (elements : List K) (element : K) :
    ((secondOccurrences equal elements).any fun other => equal other element) = true ↔
      2 ≤ occurrences equal elements element := by
  induction elements using List.reverseRecOn with
  | nil =>
    constructor
    · nofun
    · intro h
      cases h
  | append_singleton elements last ih =>
    rw [secondOccurrences_append, List.any_append, Bool.or_eq_true, ih, occurrences_append,
      occurrences_one]
    by_cases hlast : equal last element = true
    · rw [if_pos hlast]
      split_ifs with hone
      · simp only [List.any_cons, hlast, Bool.true_or, or_true, true_iff]
        have hsame := occurrences_congr he hlast elements
        omega
      · have hsame := occurrences_congr he hlast elements
        simp only [List.any_nil, Bool.false_eq_true, or_false]
        omega
    · rw [if_neg hlast]
      split_ifs with hone
      · simp [hlast]
      · simp

theorem distinct_secondOccurrences (elements : List K) :
    (secondOccurrences equal elements).Pairwise fun a b => equal a b = false := by
  induction elements using List.reverseRecOn with
  | nil => exact List.Pairwise.nil
  | append_singleton elements last ih =>
    rw [secondOccurrences_append]
    split_ifs with hone
    · refine List.pairwise_append.mpr ⟨ih, List.pairwise_singleton _ _, ?_⟩
      intro other hother element hmem
      obtain rfl := List.mem_singleton.mp hmem
      by_contra hequal
      have hany := (any_secondOccurrences he elements element).mp
        (List.any_eq_true.mpr ⟨other, hother, by simpa using hequal⟩)
      omega
    · rwa [List.append_nil]

theorem secondOccurrences_eq_nil (elements : List K) :
    secondOccurrences equal elements = [] ↔
      elements.Pairwise fun a b => equal a b = false := by
  induction elements using List.reverseRecOn with
  | nil => exact ⟨fun _ => List.Pairwise.nil, fun _ => rfl⟩
  | append_singleton elements last ih =>
    have hnone : (∀ other ∈ elements, equal other last = false) ↔
        occurrences equal elements last = 0 := by
      rw [occurrences, List.countP_eq_zero]
      simp
    have hlast : (∀ other ∈ elements, ∀ element ∈ [last], equal other element = false) ↔
        occurrences equal elements last = 0 := by
      rw [← hnone]
      simp
    rw [secondOccurrences_append, List.append_eq_nil_iff, ih, List.pairwise_append, hlast]
    constructor
    · rintro ⟨hbefore, hone⟩
      have hempty := ih.mpr hbefore
      have hfew := (any_secondOccurrences he elements last).not.mp (by rw [hempty]; nofun)
      refine ⟨hbefore, List.pairwise_singleton _ _, ?_⟩
      split_ifs at hone
      omega
    · rintro ⟨hbefore, -, hzero⟩
      rw [if_neg (by omega)]
      exact ⟨hbefore, rfl⟩

end Occurrences

section Walk

variable {hash : K → BitVec 64} {equal : K → K → Bool}
  (he : Equivalence (fun a b => equal a b = true))
  (hh : ∀ a b, equal a b = true → hash a = hash b)

include he hh

/-- A member that none is equal to is put in after the others. -/
theorem KeptSet.with {set : Set K} {members : List K} (h : KeptSet hash equal set members)
    {element : K} (hnone : (members.any fun member => equal member element) = false)
    (hle : members.length < HOLDS) :
    KeptSet hash equal (set.with equal (member hash element) .keep) (members ++ [element]) := by
  have hwith := h.1.with he hh .keep element 0 (holds_lt h.2)
  rw [Collection.put, add_nought, insertMember, hnone] at hwith
  refine ⟨hwith, ?_⟩
  rw [length_nought, List.length_append, List.length_singleton]
  exact hle

theorem KeptSet.isNone_find {set : Set K} {members : List K} (h : KeptSet hash equal set members)
    (element : K) : (set.find equal (member hash element).hash element).isNone =
      !members.any fun member => equal member element := by
  rw [← holds_nought, ← (h.1.find he hh element).2, Option.not_isSome]
  rfl

omit he hh in
structure Walks (hash : K → BitVec 64) (equal : K → K → Bool) (walked : Walked K)
    (elements : List K) : Prop where
  seen : ∃ members, KeptSet hash equal walked.seen members ∧ members.length ≤ elements.length ∧
    ∀ element, (members.any fun member => equal member element) =
      elements.any fun other => equal other element
  again : KeptSet hash equal walked.again walked.repeated
  repeated : walked.repeated = secondOccurrences equal elements

theorem walks_turn {walked : Walked K} {elements : List K} {element : K}
    (h : Walks hash equal walked elements) (hle : elements.length < HOLDS) :
    Walks hash equal (duplicatesTurn hash equal walked element) (elements ++ [element]) := by
  obtain ⟨members, hseen, hlength, hany⟩ := h.seen
  have hanswer := any_secondOccurrences he elements element
  have hmet := @any_iff_occurrences K equal elements element
  have hkept : ∀ other, ((members ++ [element]).any fun member => equal member other) =
      (elements ++ [element]).any fun member => equal member other := by
    intro other
    rw [List.any_append, List.any_append, hany]
  have hnew := hseen.isNone_find he hh element
  have hone := h.again.isNone_find he hh element
  rw [hany] at hnew
  rw [h.repeated] at hone
  rw [duplicatesTurn]
  cases hfound : elements.any fun other => equal other element with
  | false =>
    have hzero : ¬0 < occurrences equal elements element := by
      rw [← hmet, hfound]
      nofun
    rw [hfound, Bool.not_false] at hnew
    rw [if_pos hnew]
    refine ⟨⟨members ++ [element], ?_, ?_, hkept⟩, h.again, ?_⟩
    · exact hseen.with he hh ((hany element).trans hfound) (by omega)
    · rw [List.length_append, List.length_append]
      omega
    · rw [secondOccurrences_append, if_neg (by omega), List.append_nil]
      exact h.repeated
  | true =>
    have hpos : 0 < occurrences equal elements element := hmet.mp hfound
    have hstays : ∃ members, KeptSet hash equal walked.seen members ∧
        members.length ≤ (elements ++ [element]).length ∧
        ∀ other, (members.any fun member => equal member other) =
          (elements ++ [element]).any fun member => equal member other := by
      refine ⟨members, hseen, ?_, fun other => ?_⟩
      · rw [List.length_append]
        omega
      · rw [hany, any_append_met he hfound]
    rw [hfound, Bool.not_true] at hnew
    rw [if_neg (Bool.eq_false_iff.mp hnew)]
    cases hagain : (secondOccurrences equal elements).any fun other => equal other element with
    | false =>
      have hfew : ¬2 ≤ occurrences equal elements element := by
        rw [← hanswer, hagain]
        nofun
      have hshort := @length_secondOccurrences K equal elements
      rw [hagain, Bool.not_false] at hone
      rw [if_pos hone]
      refine ⟨hstays, ?_, ?_⟩
      · have hkept : KeptSet hash equal walked.again (secondOccurrences equal elements) :=
          h.repeated ▸ h.again
        have hwith := hkept.with he hh hagain (by omega)
        rwa [← h.repeated] at hwith
      · rw [secondOccurrences_append, if_pos (by omega), ← h.repeated]
    | true =>
      have hmany := hanswer.mp hagain
      rw [hagain, Bool.not_true] at hone
      rw [if_neg (Bool.eq_false_iff.mp hone)]
      refine ⟨hstays, h.again, ?_⟩
      rw [secondOccurrences_append, if_neg (by omega), List.append_nil]
      exact h.repeated

theorem walks_foldl {elements : List K} (hle : elements.length ≤ HOLDS) :
    Walks hash equal (elements.foldl (duplicatesTurn hash equal) ⟨EMPTY, EMPTY, []⟩) elements := by
  induction elements using List.reverseRecOn with
  | nil =>
    have hempty : KeptSet hash equal (EMPTY : Set K) [] := ⟨refines_empty, Nat.zero_le _⟩
    exact ⟨⟨[], hempty, Nat.le_refl _, fun _ => rfl⟩, hempty, rfl⟩
  | append_singleton elements last ih =>
    rw [List.length_append, List.length_singleton] at hle
    rw [List.foldl_append]
    exact walks_turn he hh (ih (by omega)) hle

end Walk

/-- What a list repeats is answered: the elements with precisely one earlier equal element, in the
list's order. Each value there are two of is answered once, and nothing is exactly where no two
elements are equal. -/
theorem duplicates_are_second {hash : K → BitVec 64} {equal : K → K → Bool}
    (he : Equivalence (fun a b => equal a b = true))
    (hh : ∀ a b, equal a b = true → hash a = hash b) (list : HeldList K) :
    listDuplicates hash equal list = secondOccurrences equal list.elements ∧
    ((listDuplicates hash equal list).Pairwise fun a b => equal a b = false) ∧
    (∀ element, ((listDuplicates hash equal list).any fun other => equal other element) = true ↔
      2 ≤ occurrences equal list.elements element) ∧
    (listDuplicates hash equal list = [] ↔
      list.elements.Pairwise fun a b => equal a b = false) := by
  have hwalks : listDuplicates hash equal list = secondOccurrences equal list.elements :=
    (walks_foldl he hh list.held).repeated
  rw [hwalks]
  exact ⟨rfl, distinct_secondOccurrences he _, any_secondOccurrences he _,
    secondOccurrences_eq_nil he _⟩

/-- Keys equal by their first half, every one of which hashes to the same word: the second of each
is answered, where it stands. -/
theorem duplicates_are_second_clashing :
    listDuplicates (fun _ : ℕ × ℕ => 7#64) (fun a b => a.1 == b.1)
      ⟨[(2, 0), (1, 0), (1, 5), (2, 6), (1, 7)], by decide⟩ = [(1, 5), (2, 6)] := by
  have he : Equivalence (fun a b : ℕ × ℕ => (a.1 == b.1) = true) :=
    ⟨fun a => by simp, fun h => by simp_all, fun h k => by simp_all⟩
  rw [(duplicates_are_second he (fun _ _ _ => rfl) _).1]
  rfl

end SoutherNative.Collection
