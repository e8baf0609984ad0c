import Mathlib

set_option autoImplicit false

/-!
# What things lead to

Each thing leads to others, or to something that is no thing at all. Two computations over that:
striking, from a set, what leads out of it until nothing does, and gathering all that some things
lead to. What is left of the first is the largest part that nothing leads out of, and what comes of
the second is what the things reach.
-/
namespace SoutherNative.Closing

section

variable {α : Type} [DecidableEq α] (leads : α → List (Option α))

def Reach : α → α → Prop := Relation.ReflTransGen fun thing next => some next ∈ leads thing

def stays (held : Finset α) (thing : α) : Bool :=
  (leads thing).all fun next => next.any fun next => decide (next ∈ held)

def struck (held : Finset α) : Finset α := held.filter fun thing => ¬stays leads held thing = true

def strike (held : Finset α) : Finset α :=
  if struck leads held = ∅ then held else strike (held \ struck leads held)
  termination_by held.card
  decreasing_by
    rename_i hstruck
    exact Finset.card_lt_card (Finset.sdiff_ssubset (Finset.filter_subset _ _)
      (Finset.nonempty_iff_ne_empty.mpr hstruck))

variable {leads}

theorem stays_iff {held : Finset α} {thing : α} : stays leads held thing = true ↔
    none ∉ leads thing ∧ ∀ next, some next ∈ leads thing → next ∈ held := by
  rw [stays, List.all_eq_true]
  constructor
  · intro h
    refine ⟨fun hnone => by simpa using h none hnone, fun next hnext => ?_⟩
    simpa using h (some next) hnext
  · rintro ⟨hnone, hsome⟩ next hnext
    cases next with
    | none => exact absurd hnext hnone
    | some next => simpa using hsome next hnext

theorem stays_mono {held more : Finset α} (h : held ⊆ more) {thing : α}
    (hstays : stays leads held thing = true) : stays leads more thing = true := by
  rw [stays_iff] at hstays ⊢
  exact ⟨hstays.1, fun next hnext => h (hstays.2 next hnext)⟩

variable (leads)

theorem strike_subset (held : Finset α) : strike leads held ⊆ held := by
  induction held using strike.induct leads with
  | case1 held hstruck =>
    rw [strike, if_pos hstruck]
  | case2 held hstruck ih =>
    rw [strike, if_neg hstruck]
    exact ih.trans Finset.sdiff_subset

/-- Nothing leads out of what is left. -/
theorem strike_stays (held : Finset α) :
    ∀ thing ∈ strike leads held, stays leads (strike leads held) thing = true := by
  induction held using strike.induct leads with
  | case1 held hstruck =>
    rw [strike, if_pos hstruck]
    intro thing hthing
    by_contra hout
    have hmem : thing ∈ struck leads held := Finset.mem_filter.mpr ⟨hthing, hout⟩
    rw [hstruck] at hmem
    cases hmem
  | case2 held hstruck ih =>
    rw [strike, if_neg hstruck]
    exact ih

theorem strike_greatest {held part : Finset α} (hpart : part ⊆ held)
    (hstays : ∀ thing ∈ part, stays leads part thing = true) : part ⊆ strike leads held := by
  induction held using strike.induct leads with
  | case1 held hstruck =>
    rw [strike, if_pos hstruck]
    exact hpart
  | case2 held hstruck ih =>
    rw [strike, if_neg hstruck]
    refine ih fun thing hthing => Finset.mem_sdiff.mpr ⟨hpart hthing, fun hout => ?_⟩
    exact (Finset.mem_filter.mp hout).2 (stays_mono hpart (hstays thing hthing))

/-- A thing is left where everything it reaches was held and leads to things alone. -/
theorem mem_strike {held : Finset α} {thing : α} : thing ∈ strike leads held ↔
    ∀ reached, Reach leads thing reached → reached ∈ held ∧ none ∉ leads reached := by
  constructor
  · intro hthing reached hreach
    have hleft : reached ∈ strike leads held := by
      induction hreach with
      | refl => exact hthing
      | tail _ hnext ih => exact (stays_iff.mp (strike_stays leads held _ ih)).2 _ hnext
    exact ⟨strike_subset leads held hleft, (stays_iff.mp (strike_stays leads held _ hleft)).1⟩
  · intro h
    classical
    let part := held.filter fun reached => Reach leads thing reached
    have hpart : part ⊆ strike leads held := by
      refine strike_greatest leads (Finset.filter_subset _ _) fun reached hreached => ?_
      have hreach := (Finset.mem_filter.mp hreached).2
      refine stays_iff.mpr ⟨(h reached hreach).2, fun next hnext => ?_⟩
      have hfurther : Reach leads thing next := hreach.tail hnext
      exact Finset.mem_filter.mpr ⟨(h next hfurther).1, hfurther⟩
    exact hpart (Finset.mem_filter.mpr ⟨(h thing .refl).1, .refl⟩)

def gather : ℕ → List α → Finset α → Option (Finset α)
  | 0, _, _ => none
  | _ + 1, [], reached => some reached
  | bound + 1, thing :: left, reached =>
    if thing ∈ reached then gather bound left reached
    else gather bound ((leads thing).reduceOption.reverse ++ left) (insert thing reached)

def Gathering (left : List α) (reached : Finset α) : Prop :=
  ∀ thing ∈ reached, ∀ next, some next ∈ leads thing → next ∈ reached ∨ next ∈ left

variable {leads}

omit [DecidableEq α] in
theorem mem_left {thing next : α} {left : List α} :
    next ∈ (leads thing).reduceOption.reverse ++ left ↔ some next ∈ leads thing ∨ next ∈ left := by
  rw [List.mem_append, List.mem_reverse, List.reduceOption_mem_iff]

theorem Gathering.step {thing : α} {left : List α} {reached : Finset α}
    (h : Gathering leads (thing :: left) reached) : Gathering leads
      ((leads thing).reduceOption.reverse ++ left) (insert thing reached) := by
  intro other hother next hnext
  rw [mem_left, Finset.mem_insert]
  rcases Finset.mem_insert.mp hother with rfl | hother
  · exact .inr (.inl hnext)
  · rcases h other hother next hnext with hreached | hleft
    · exact .inl (.inr hreached)
    · rcases List.mem_cons.mp hleft with rfl | hleft
      · exact .inl (.inl rfl)
      · exact .inr (.inr hleft)

omit [DecidableEq α] in
theorem Gathering.skip {thing : α} {left : List α} {reached : Finset α}
    (h : Gathering leads (thing :: left) reached) (hthing : thing ∈ reached) :
    Gathering leads left reached := by
  intro other hother next hnext
  rcases h other hother next hnext with hreached | hleft
  · exact .inl hreached
  · rcases List.mem_cons.mp hleft with rfl | hleft
    · exact .inl hthing
    · exact .inr hleft

omit [DecidableEq α] in
/-- What has been taken up reaches what has been, and what is left reaches. -/
theorem Gathering.led {left : List α} {reached : Finset α} (h : Gathering leads left reached)
    {root thing : α} (hroot : root ∈ reached) (hreach : Reach leads root thing) :
    thing ∈ reached ∨ ∃ root ∈ left, Reach leads root thing := by
  induction hreach with
  | refl => exact .inl hroot
  | tail _ hnext ih =>
    rcases ih with hreached | ⟨other, hother, hreach⟩
    · rcases h _ hreached _ hnext with hreached | hleft
      · exact .inl hreached
      · exact .inr ⟨_, hleft, .refl⟩
    · exact .inr ⟨other, hother, hreach.tail hnext⟩

/-- What is gathered is what was, and what the things left reach. -/
theorem mem_gather {bound : ℕ} {left : List α} {reached result : Finset α}
    (h : gather leads bound left reached = some result) (hgathering : Gathering leads left reached)
    (thing : α) : thing ∈ result ↔
      thing ∈ reached ∨ ∃ root ∈ left, Reach leads root thing := by
  induction bound generalizing left reached with
  | zero => cases h
  | succ bound ih =>
    cases left with
    | nil =>
      cases h
      simp
    | cons first left =>
      rw [gather] at h
      by_cases hfirst : first ∈ reached
      · rw [if_pos hfirst] at h
        rw [ih h (hgathering.skip hfirst)]
        constructor
        · rintro (hreached | ⟨root, hroot, hreach⟩)
          · exact .inl hreached
          · exact .inr ⟨root, List.mem_cons_of_mem _ hroot, hreach⟩
        · rintro (hreached | ⟨root, hroot, hreach⟩)
          · exact .inl hreached
          · rcases List.mem_cons.mp hroot with rfl | hroot
            · exact (hgathering.skip hfirst).led hfirst hreach
            · exact .inr ⟨root, hroot, hreach⟩
      · rw [if_neg hfirst] at h
        rw [ih h hgathering.step, Finset.mem_insert]
        constructor
        · rintro ((rfl | hreached) | ⟨root, hroot, hreach⟩)
          · exact .inr ⟨thing, List.mem_cons_self, .refl⟩
          · exact .inl hreached
          · rcases mem_left.mp hroot with hnext | hroot
            · exact .inr ⟨first, List.mem_cons_self, .head hnext hreach⟩
            · exact .inr ⟨root, List.mem_cons_of_mem _ hroot, hreach⟩
        · rintro (hreached | ⟨root, hroot, hreach⟩)
          · exact .inl (.inr hreached)
          · rcases List.mem_cons.mp hroot with rfl | hroot
            · rcases hreach.cases_head with rfl | ⟨next, hnext, hreach⟩
              · exact .inl (.inl rfl)
              · exact .inr ⟨next, mem_left.mpr (.inl hnext), hreach⟩
            · exact .inr ⟨root, mem_left.mpr (.inr hroot), hreach⟩

/-- Where nothing leads out of a set, gathering within it comes to an end. -/
theorem gather_ends {within : Finset α}
    (hwithin : ∀ thing ∈ within, ∀ next, some next ∈ leads thing → next ∈ within)
    (left : List α) (reached : Finset α) (hleft : ∀ thing ∈ left, thing ∈ within) :
    ∃ bound result, gather leads bound left reached = some result := by
  cases left with
  | nil => exact ⟨1, reached, rfl⟩
  | cons first left =>
    obtain ⟨hfirst, hrest⟩ := List.forall_mem_cons.mp hleft
    by_cases hmem : first ∈ reached
    · obtain ⟨bound, result, h⟩ := gather_ends hwithin left reached hrest
      exact ⟨bound + 1, result, (if_pos hmem).trans h⟩
    · obtain ⟨bound, result, h⟩ := gather_ends hwithin
        ((leads first).reduceOption.reverse ++ left) (insert first reached) (by
          intro thing hthing
          rcases mem_left.mp hthing with hnext | hthing
          · exact hwithin first hfirst thing hnext
          · exact hrest thing hthing)
      exact ⟨bound + 1, result, (if_neg hmem).trans h⟩
  termination_by ((within \ reached).card, left.length)
  decreasing_by
    · exact Prod.Lex.right _ (by simp_all)
    · refine Prod.Lex.left _ _ (Finset.card_lt_card ⟨?_, fun h => ?_⟩)
      · exact Finset.sdiff_subset_sdiff le_rfl (Finset.subset_insert _ _)
      · have hboth := Finset.mem_sdiff.mp (h (Finset.mem_sdiff.mpr ⟨hfirst, hmem⟩))
        exact hboth.2 (Finset.mem_insert_self _ _)

end

end SoutherNative.Closing
