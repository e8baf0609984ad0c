import Mathlib

set_option autoImplicit false

/-!
# Merging from the bottom up

Rows ordered by merging runs of one row into runs of two, of four, and on until one run is all of
them. A row is its place among the rows as they came in, so what a stable order is can be said of
the rows themselves: by what is compared, and where that says nothing by the place.
-/
namespace SoutherNative.MergePasses

/-- A comparison that holds of two rows where the one is strictly before the other: no two are
    before one another, and what is not before a row is not before anything after it. -/
structure Weak {α : Type} (less : α → α → Bool) : Prop where
  asymm : ∀ a b, less a b = true → less b a = false
  trans : ∀ a b c, less b a = false → less c b = false → less c a = false

section

variable (less : ℕ → ℕ → Bool)

def Before (a b : ℕ) : Prop := less a b = true ∨ (less b a = false ∧ a < b)

def merge (left right : List ℕ) : List ℕ := List.merge left right fun l r => !less r l

def leftFirst : List ℕ → List ℕ → Bool
  | [], _ => false
  | _ :: _, [] => true
  | l :: _, r :: _ => !less r l

def pass (width : ℕ) (rows : List ℕ) : List ℕ :=
  if rows = [] ∨ width = 0 then []
  else merge less (rows.take width) ((rows.drop width).take width) ++
    pass width (rows.drop (2 * width))
termination_by rows.length
decreasing_by
  rename_i some
  obtain ⟨nonempty, wide⟩ := not_or.mp some
  have := List.length_pos_iff.mpr nonempty
  rw [List.length_drop]
  omega

def passes : ℕ → ℕ → List ℕ → List ℕ
  | 0, _, rows => rows
  | steps + 1, width, rows =>
    if width < rows.length then passes steps (2 * width) (pass less width rows) else rows

variable {less}

lemma Weak.before_trans (weak : Weak less) {a b c : ℕ} (first : Before less a b)
    (second : Before less b c) : Before less a c := by
  have le_ab : less b a = false := first.elim (weak.asymm a b) And.left
  have le_bc : less c b = false := second.elim (weak.asymm b c) And.left
  have le_ac := weak.trans a b c le_ab le_bc
  by_cases strict : less a c = true
  · exact .inl strict
  · have le_ca : less a c = false := by simpa using strict
    -- Neither of the two is then strict, so the places decide both.
    have le_ba : less a b = false := weak.trans b c a le_bc le_ca
    have le_cb : less b c = false := weak.trans c a b le_ca le_ab
    rcases first with one | ⟨-, one⟩
    · rw [le_ba] at one
      cases one
    · rcases second with other | ⟨-, other⟩
      · rw [le_cb] at other
        cases other
      · exact .inr ⟨le_ac, by omega⟩

lemma merge_nil_left (right : List ℕ) : merge less [] right = right := by
  simp [merge]

lemma merge_nil_right (left : List ℕ) : merge less left [] = left := by
  simp [merge]

lemma merge_left {x y : ℕ} (kept : less y x = false) (xs ys : List ℕ) :
    merge less (x :: xs) (y :: ys) = x :: merge less xs (y :: ys) := by
  simp [merge, kept]

lemma merge_right {x y : ℕ} (before : less y x = true) (xs ys : List ℕ) :
    merge less (x :: xs) (y :: ys) = y :: merge less (x :: xs) ys := by
  simp [merge, before]

lemma merge_leftFirst {left right : List ℕ} (first : leftFirst less left right = true) :
    ∃ x xs, left = x :: xs ∧ merge less left right = x :: merge less xs right := by
  cases left with
  | nil => simp [leftFirst] at first
  | cons x xs =>
    refine ⟨x, xs, rfl, ?_⟩
    cases right with
    | nil => rw [merge_nil_right, merge_nil_right]
    | cons y ys => exact merge_left (by simpa [leftFirst] using first) xs ys

lemma merge_rightFirst {left right : List ℕ} (first : leftFirst less left right = false)
    (more : 0 < left.length + right.length) :
    ∃ y ys, right = y :: ys ∧ merge less left right = y :: merge less left ys := by
  cases right with
  | nil =>
    cases left with
    | nil => simp at more
    | cons x xs => simp [leftFirst] at first
  | cons y ys =>
    refine ⟨y, ys, rfl, ?_⟩
    cases left with
    | nil => rw [merge_nil_left, merge_nil_left]
    | cons x xs => exact merge_right (by simpa [leftFirst] using first) xs ys

lemma merge_perm (left right : List ℕ) : (merge less left right).Perm (left ++ right) :=
  List.merge_perm_append _

lemma mem_merge {left right : List ℕ} {row : ℕ} :
    row ∈ merge less left right ↔ row ∈ left ∨ row ∈ right := by
  rw [(merge_perm left right).mem_iff, List.mem_append]

/-- Two ordered runs, the rows of the one all in before those of the other, merge into one. -/
lemma merge_ordered (weak : Weak less) {left right : List ℕ}
    (orderedLeft : left.Pairwise (Before less)) (orderedRight : right.Pairwise (Before less))
    (places : ∀ l ∈ left, ∀ r ∈ right, l < r) : (merge less left right).Pairwise (Before less) := by
  induction left generalizing right with
  | nil =>
    rw [merge_nil_left]
    exact orderedRight
  | cons x xs ihLeft =>
    induction right with
    | nil =>
      rw [merge_nil_right]
      exact orderedLeft
    | cons y ys ihRight =>
      obtain ⟨headLeft, tailLeft⟩ := List.pairwise_cons.mp orderedLeft
      obtain ⟨headRight, tailRight⟩ := List.pairwise_cons.mp orderedRight
      by_cases before : less y x = true
      · rw [merge_right before, List.pairwise_cons]
        refine ⟨?_, ihRight tailRight fun l hl r hr =>
          places l hl r (List.mem_cons_of_mem _ hr)⟩
        have first : Before less y x := .inl before
        intro row member
        rcases mem_merge.mp member with among | among
        · rcases List.mem_cons.mp among with rfl | rest
          · exact first
          · exact weak.before_trans first (headLeft row rest)
        · exact headRight row among
      · have kept : less y x = false := by simpa using before
        rw [merge_left kept, List.pairwise_cons]
        refine ⟨?_, ihLeft tailLeft orderedRight fun l hl r hr =>
          places l (List.mem_cons_of_mem _ hl) r hr⟩
        have first : Before less x y := .inr ⟨kept, places x (by simp) y (by simp)⟩
        intro row member
        rcases mem_merge.mp member with among | among
        · exact headLeft row among
        · rcases List.mem_cons.mp among with rfl | rest
          · exact first
          · exact weak.before_trans first (headRight row rest)

inductive Runs (less : ℕ → ℕ → Bool) (width : ℕ) : ℕ → List ℕ → Prop
  | nil (place : ℕ) : Runs less width place []
  | last {place : ℕ} {run : List ℕ} (ordered : run.Pairwise (Before less))
    (rows : run.Perm (List.range' place run.length)) (short : run.length ≤ width) :
    Runs less width place run
  | cons {place : ℕ} {run rest : List ℕ} (ordered : run.Pairwise (Before less))
    (rows : run.Perm (List.range' place run.length)) (full : run.length = width)
    (others : Runs less width (place + width) rest) : Runs less width place (run ++ rest)

/-- The rows as they came in are runs of one. -/
lemma runs_one (count place : ℕ) : Runs less 1 place (List.range' place count) := by
  induction count generalizing place with
  | zero => exact .nil place
  | succ count ih =>
    rw [List.range'_succ, ← List.singleton_append]
    exact .cons (List.pairwise_singleton _ _) (by simp) rfl (ih (place + 1))

/-- What the first two runs are, and what is left after them. -/
lemma Runs.split {width place : ℕ} {rows : List ℕ}
    (runs : Runs less width place rows) :
    (rows.take width).Pairwise (Before less) ∧
    (rows.take width).Perm (List.range' place (rows.take width).length) ∧
    Runs less width (place + width) (rows.drop width) := by
  cases runs with
  | nil => exact ⟨by simp, by simp, by simpa using Runs.nil _⟩
  | last ordered perm short =>
    rw [List.take_of_length_le short, List.drop_eq_nil_of_le short]
    exact ⟨ordered, perm, .nil _⟩
  | cons ordered perm full others =>
    rw [List.take_left' full, List.drop_left' full]
    exact ⟨ordered, perm, others⟩

lemma mem_range_of_perm {run : List ℕ} {place : ℕ} (rows : run.Perm (List.range' place run.length))
    {row : ℕ} (member : row ∈ run) : place ≤ row ∧ row < place + run.length := by
  have among := rows.mem_iff.mp member
  rw [List.mem_range'_1] at among
  exact among

lemma pass_runs (weak : Weak less) {width : ℕ} (wide : 0 < width) :
    ∀ (count place : ℕ) (rows : List ℕ), rows.length ≤ count → Runs less width place rows →
      Runs less (2 * width) place (pass less width rows) := by
  intro count
  induction count using Nat.strong_induction_on with
  | _ count ih =>
    intro place rows few runs
    rw [pass]
    split
    · exact .nil place
    · rename_i some
      have nonempty := List.length_pos_iff.mpr (not_or.mp some).1
      obtain ⟨orderedLeft, permLeft, rest⟩ := runs.split
      obtain ⟨orderedRight, permRight, others⟩ := rest.split
      have long : (rows.take width).length = min width rows.length := List.length_take
      have long' : ((rows.drop width).take width).length = min width (rows.length - width) := by
        rw [List.length_take, List.length_drop]
      have ordered := merge_ordered weak orderedLeft orderedRight (by
        intro l hl r hr
        have low := mem_range_of_perm permLeft hl
        have high := mem_range_of_perm permRight hr
        have := List.length_pos_of_mem hr
        omega)
      have length : (merge less (rows.take width) ((rows.drop width).take width)).length =
          min (2 * width) rows.length := by
        rw [(merge_perm _ _).length_eq, List.length_append]
        omega
      have perm : (merge less (rows.take width) ((rows.drop width).take width)).Perm
          (List.range' place (min (2 * width) rows.length)) := by
        refine (merge_perm _ _).trans ((permLeft.append permRight).trans ?_)
        by_cases full : width ≤ rows.length
        · rw [long, long', show min width rows.length = width by omega,
            List.range'_append_1, show width + min width (rows.length - width) =
              min (2 * width) rows.length by omega]
        · rw [long, long', show min width (rows.length - width) = 0 by omega,
            show min width rows.length = min (2 * width) rows.length by omega]
          simp
      by_cases more : 2 * width ≤ rows.length
      · refine .cons ordered ?_ (by rw [length]; omega) ?_
        · rw [length]
          exact perm
        · refine ih (rows.length - 2 * width) (by omega) _ _ (by rw [List.length_drop]) ?_
          rw [List.drop_drop] at others
          rw [two_mul, ← Nat.add_assoc]
          exact others
      · have ended : rows.drop (2 * width) = [] := List.drop_eq_nil_of_le (by omega)
        have none : pass less width ([] : List ℕ) = [] := by
          rw [pass]
          simp
        rw [ended, none, List.append_nil]
        refine .last ordered ?_ (by rw [length]; omega)
        rw [length]
        exact perm

/-- One run of all the rows is the rows in a stable order. -/
lemma Runs.whole {width : ℕ} {rows : List ℕ} (runs : Runs less width 0 rows)
    (short : rows.length ≤ width) : rows.Pairwise (Before less) := by
  have first := runs.split.1
  rwa [List.take_of_length_le short] at first

lemma pass_perm {width : ℕ} (wide : 0 < width) :
    ∀ (count : ℕ) (rows : List ℕ), rows.length ≤ count → (pass less width rows).Perm rows := by
  intro count
  induction count using Nat.strong_induction_on with
  | _ count ih =>
    intro rows few
    rw [pass]
    split
    · rename_i none
      rw [none.resolve_right (by omega)]
    · rename_i some
      have nonempty := List.length_pos_iff.mpr (not_or.mp some).1
      have rest := ih (rows.length - 2 * width) (by omega) (rows.drop (2 * width))
        (by rw [List.length_drop])
      have pieces : rows.take width ++ (rows.drop width).take width ++ rows.drop (2 * width) =
          rows := by
        rw [two_mul, ← List.drop_drop, List.append_assoc, List.take_append_drop,
          List.take_append_drop]
      refine ((merge_perm _ _).append rest).trans ?_
      rw [pieces]

/-- Passes leave the rows in a stable order, and each of them once. -/
lemma passes_ordered (weak : Weak less) {steps width : ℕ} (wide : 0 < width) {rows : List ℕ}
    (runs : Runs less width 0 rows) (enough : rows.length ≤ width + steps) :
    (passes less steps width rows).Pairwise (Before less) ∧
      (passes less steps width rows).Perm rows := by
  induction steps generalizing width rows with
  | zero => exact ⟨runs.whole (by simpa using enough), .refl _⟩
  | succ steps ih =>
    rw [passes]
    split
    · have perm := @pass_perm less _ wide rows.length rows le_rfl
      have again := ih (by omega) (pass_runs weak wide rows.length 0 rows le_rfl runs)
        (by rw [perm.length_eq]; omega)
      exact ⟨again.1, again.2.trans perm⟩
    · exact ⟨runs.whole (by omega), .refl _⟩

end

end SoutherNative.MergePasses
