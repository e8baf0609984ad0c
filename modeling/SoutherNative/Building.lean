import Mathlib

set_option autoImplicit false

/-!
# Building things out of one another

Some things are given, and others are built of what they need. What can be built, a step at a time
and each step of what was built before it, is decided by a graph: each thing has a way of building
it picked, and following what the picked ways need never comes back to where it was.
-/
namespace SoutherNative.Building

section

variable {α : Type} (given : α → Prop) (ways : α → List α → Prop)

inductive Steps : List α → Prop
  | none : Steps []
  | given {made : List α} {thing : α} (before : Steps made) (there : given thing) :
    Steps (thing :: made)
  | built {made needs : List α} {thing : α} (before : Steps made) (way : ways thing needs)
    (ready : ∀ needed ∈ needs, needed ∈ made) : Steps (thing :: made)

def Needs (asked : List α) (pick : α → List α) (thing needed : α) : Prop :=
  thing ∈ asked ∧ ¬given thing ∧ needed ∈ pick thing

def Grounded (asked : List α) : Prop :=
  ∃ pick : α → List α, (∀ thing ∈ asked, given thing ∨ ways thing (pick thing)) ∧
    ∀ thing, ¬Relation.TransGen (Needs given asked pick) thing thing

variable {given ways}

lemma Steps.append {first second : List α} (left : Steps given ways first)
    (right : Steps given ways second) : Steps given ways (first ++ second) := by
  induction left with
  | none => exact right
  | given _ there ih => exact .given ih there
  | built _ way ready ih =>
    exact .built ih way fun needed member => List.mem_append_left _ (ready needed member)

/-- What is built in steps is built of what was built before. -/
lemma Steps.ranked {made : List α} (steps : Steps given ways made) :
    ∃ rank : α → ℕ, (∀ thing ∈ made, rank thing < made.length) ∧
      ∀ thing ∈ made, given thing ∨ ∃ needs, ways thing needs ∧
        ∀ needed ∈ needs, needed ∈ made ∧ rank needed < rank thing := by
  classical
  -- A thing built twice keeps the rank it was first built at.
  have more : ∀ (made : List α) (thing : α) (rank : α → ℕ),
      (∀ other ∈ made, rank other < made.length) →
      (∀ other ∈ made, given other ∨ ∃ needs, ways other needs ∧
        ∀ needed ∈ needs, needed ∈ made ∧ rank needed < rank other) →
      (given thing ∨ ∃ needs, ways thing needs ∧ ∀ needed ∈ needs, needed ∈ made) →
      ∃ rank : α → ℕ, (∀ other ∈ thing :: made, rank other < (thing :: made).length) ∧
        ∀ other ∈ thing :: made, given other ∨ ∃ needs, ways other needs ∧
          ∀ needed ∈ needs, needed ∈ thing :: made ∧ rank needed < rank other := by
    intro made thing rank low built new
    let later := fun other => if other ∈ made then rank other else made.length
    have same : ∀ other ∈ made, later other = rank other := fun other member => if_pos member
    refine ⟨later, ?_, ?_⟩
    · intro other _
      rw [List.length_cons]
      by_cases member : other ∈ made
      · rw [same other member]
        exact Nat.lt_succ_of_lt (low other member)
      · exact (if_neg member).trans_lt (Nat.lt_succ_self _)
    · intro other member
      by_cases old : other ∈ made
      · refine (built other old).imp id fun ⟨needs, way, ready⟩ => ⟨needs, way, ?_⟩
        intro needed among
        obtain ⟨before, less⟩ := ready needed among
        rw [same needed before, same other old]
        exact ⟨List.mem_cons_of_mem _ before, less⟩
      · have last : other = thing := (List.mem_cons.mp member).resolve_right old
        subst last
        refine new.imp id fun ⟨needs, way, ready⟩ => ⟨needs, way, ?_⟩
        intro needed among
        have before := ready needed among
        have top : later other = made.length := if_neg old
        rw [same needed before, top]
        exact ⟨List.mem_cons_of_mem _ before, low needed before⟩
  induction steps with
  | none => exact ⟨fun _ => 0, by simp, by simp⟩
  | given _ there ih =>
    obtain ⟨rank, low, built⟩ := ih
    exact more _ _ rank low built (Or.inl there)
  | built _ way ready ih =>
    obtain ⟨rank, low, built⟩ := ih
    exact more _ _ rank low built (Or.inr ⟨_, way, ready⟩)

lemma steps_all {asked : List α}
    (each : ∀ thing ∈ asked, ∃ made, Steps given ways made ∧ thing ∈ made) :
    ∃ made, Steps given ways made ∧ ∀ thing ∈ asked, thing ∈ made := by
  induction asked with
  | nil => exact ⟨[], .none, by simp⟩
  | cons thing rest ih =>
    obtain ⟨first, stepsFirst, here⟩ := each thing (by simp)
    obtain ⟨others, stepsOthers, there⟩ := ih fun other member =>
      each other (List.mem_cons_of_mem _ member)
    refine ⟨first ++ others, stepsFirst.append stepsOthers, ?_⟩
    intro other member
    rcases List.mem_cons.mp member with rfl | among
    · exact List.mem_append_left _ here
    · exact List.mem_append_right _ (there other among)

lemma grounded_of_steps {asked made : List α} (steps : Steps given ways made)
    (all : ∀ thing ∈ asked, thing ∈ made) : Grounded given ways asked := by
  classical
  obtain ⟨rank, -, built⟩ := steps.ranked
  have way (thing : α) : ∃ needs, thing ∈ asked → given thing ∨ (ways thing needs ∧
      ∀ needed ∈ needs, rank needed < rank thing) := by
    by_cases member : thing ∈ asked
    · rcases built thing (all thing member) with there | ⟨needs, way, ready⟩
      · exact ⟨[], fun _ => Or.inl there⟩
      · exact ⟨needs, fun _ => Or.inr ⟨way, fun needed among => (ready needed among).2⟩⟩
    · exact ⟨[], fun member' => absurd member' member⟩
  choose pick picked using way
  refine ⟨pick, fun thing member => (picked thing member).imp id And.left, ?_⟩
  have falls : ∀ thing needed, Needs given asked pick thing needed → rank needed < rank thing := by
    rintro thing needed ⟨member, notGiven, among⟩
    exact ((picked thing member).resolve_left notGiven).2 needed among
  intro thing round
  have less : ∀ other, Relation.TransGen (Needs given asked pick) thing other →
      rank other < rank thing := by
    intro other path
    induction path with
    | single step => exact falls _ _ step
    | tail _ step ih => exact (falls _ _ step).trans ih
  exact lt_irrefl _ (less thing round)

lemma steps_of_grounded {asked : List α}
    (closed : ∀ thing ∈ asked, ∀ needs, ways thing needs → ∀ needed ∈ needs, needed ∈ asked)
    (grounded : Grounded given ways asked) :
    ∃ made, Steps given ways made ∧ ∀ thing ∈ asked, thing ∈ made := by
  obtain ⟨pick, picked, acyclic⟩ := grounded
  -- Of finitely many things, none of which leads back to itself, one leads nowhere.
  let below : {thing // thing ∈ asked} → {thing // thing ∈ asked} → Prop := fun needed thing =>
    Relation.TransGen (Needs given asked pick) thing needed
  have trans : IsTrans _ below := ⟨fun _ _ _ first second => second.trans first⟩
  have irrefl : Std.Irrefl below := ⟨fun thing => acyclic thing⟩
  have finite : Finite {thing // thing ∈ asked} := (List.finite_toSet asked).to_subtype
  have founded : WellFounded below := Finite.wellFounded_of_trans_of_irrefl below
  apply steps_all
  intro thing member
  have each : ∀ thing : {thing // thing ∈ asked}, ∃ made, Steps given ways made ∧ ↑thing ∈ made := by
    intro thing
    induction thing using founded.induction with
    | _ thing ih =>
      rcases Classical.em (given thing.1) with there | notGiven
      · exact ⟨[thing], .given .none there, by simp⟩
      · have way := (picked thing thing.2).resolve_left notGiven
        obtain ⟨made, steps, ready⟩ := @steps_all _ _ _ (pick thing) fun needed among =>
          ih ⟨needed, closed thing thing.2 _ way needed among⟩ (.single ⟨thing.2, notGiven, among⟩)
        exact ⟨thing :: made, .built steps way ready, by simp⟩
  exact each ⟨thing, member⟩

/-- What is asked for can be built, step by step, exactly where it is grounded. -/
theorem steps_iff_grounded {asked : List α}
    (closed : ∀ thing ∈ asked, ∀ needs, ways thing needs → ∀ needed ∈ needs, needed ∈ asked) :
    (∃ made, Steps given ways made ∧ ∀ thing ∈ asked, thing ∈ made) ↔
      Grounded given ways asked := by
  constructor
  · rintro ⟨made, steps, all⟩
    exact grounded_of_steps steps all
  · exact steps_of_grounded closed

end

end SoutherNative.Building
