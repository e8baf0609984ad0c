import Mathlib

set_option autoImplicit false

/-!
# Lists matched one to one

Two lists as long as each other, where each element of one is related to one of the other and no two
are related to the same, are matched one to one by a permutation.
-/
namespace SoutherNative.Matching

variable {A B C : Type}

/-- As many, and each of `as` related to one of `bs`. -/
def Covered (r : A → B → Prop) (as : List A) (bs : List B) : Prop :=
  as.length = bs.length ∧ ∀ a ∈ as, ∃ b ∈ bs, r a b

/-- Some order of `bs` is related to `as` element by element. -/
def Matched (r : A → B → Prop) (as : List A) (bs : List B) : Prop :=
  ∃ bs', bs'.Perm bs ∧ List.Forall₂ r as bs'

variable {r : A → B → Prop}

theorem Covered.matched {as : List A} {bs : List B} (h : Covered r as bs)
    (happart : as.Pairwise (fun a a' => ∀ b ∈ bs, r a b → ¬ r a' b)) : Matched r as bs := by
  obtain ⟨hlen, hsome⟩ := h
  induction as generalizing bs with
  | nil =>
    rw [List.length_nil, eq_comm, List.length_eq_zero_iff] at hlen
    rw [hlen]
    exact ⟨[], List.Perm.refl _, .nil⟩
  | cons a as ih =>
    obtain ⟨b, hb, hab⟩ := hsome a List.mem_cons_self
    obtain ⟨front, back, rfl⟩ := List.append_of_mem hb
    rw [List.pairwise_cons] at happart
    have hmem : ∀ c ∈ front ++ back, c ∈ front ++ b :: back := by
      intro c hc
      rcases List.mem_append.mp hc with hc | hc
      · exact List.mem_append_left _ hc
      · exact List.mem_append_right _ (List.mem_cons_of_mem _ hc)
    have hrest : ∀ a' ∈ as, ∃ c ∈ front ++ back, r a' c := by
      intro a' ha'
      obtain ⟨c, hc, hac⟩ := hsome a' (List.mem_cons_of_mem _ ha')
      refine ⟨c, ?_, hac⟩
      rcases List.mem_append.mp hc with hc | hc
      · exact List.mem_append_left _ hc
      · rcases List.mem_cons.mp hc with rfl | hc
        · exact absurd hac (happart.1 a' ha' c (by simp) hab)
        · exact List.mem_append_right _ hc
    have hlen' : as.length = (front ++ back).length := by
      simp only [List.length_cons, List.length_append] at hlen ⊢
      omega
    have happart' : as.Pairwise (fun x y => ∀ c ∈ front ++ back, r x c → ¬ r y c) :=
      happart.2.imp (fun hxy c hc => hxy c (hmem c hc))
    obtain ⟨bs', hperm, hmatch⟩ := ih happart' hlen' hrest
    exact ⟨b :: bs', (hperm.cons b).trans List.perm_middle.symm, .cons hab hmatch⟩

/-- What is matched is covered the other way round. -/
theorem Matched.covered_symm {as : List A} {bs : List B} (h : Matched r as bs) :
    Covered (fun b a => r a b) bs as := by
  obtain ⟨bs', hperm, hmatch⟩ := h
  refine ⟨by rw [← hperm.length_eq, hmatch.length_eq], fun b hb => ?_⟩
  have hb' := hperm.mem_iff.mpr hb
  clear hperm hb
  induction hmatch with
  | nil => cases hb'
  | @cons a b' as bs' hab _ ih =>
    rcases List.mem_cons.mp hb' with rfl | hb'
    · exact ⟨a, List.mem_cons_self, hab⟩
    · obtain ⟨a', ha', hr⟩ := ih hb'
      exact ⟨a', List.mem_cons_of_mem _ ha', hr⟩

theorem Covered.trans {s : B → C → Prop} {t : A → C → Prop} {as : List A} {bs : List B}
    {cs : List C} (hab : Covered r as bs) (hbc : Covered s bs cs)
    (h : ∀ a ∈ as, ∀ b ∈ bs, ∀ c ∈ cs, r a b → s b c → t a c) : Covered t as cs := by
  refine ⟨hab.1.trans hbc.1, fun a ha => ?_⟩
  obtain ⟨b, hb, hr⟩ := hab.2 a ha
  obtain ⟨c, hc, hs⟩ := hbc.2 b hb
  exact ⟨c, hc, h a ha b hb c hc hr hs⟩

/-- What is matched comes to the same, folded by a step that does not ask the order. -/
theorem Matched.foldl_eq {M : Type} {f : M → A → M} {g : M → B → M} {as : List A} {bs : List B}
    (h : Matched r as bs) (hcomm : ∀ m b b', g (g m b) b' = g (g m b') b)
    (hstep : ∀ m, ∀ a ∈ as, ∀ b ∈ bs, r a b → f m a = g m b) (m : M) :
    as.foldl f m = bs.foldl g m := by
  obtain ⟨bs', hperm, hmatch⟩ := h
  have : RightCommutative g := ⟨hcomm⟩
  rw [← hperm.foldl_eq m]
  have hstep' : ∀ m, ∀ a ∈ as, ∀ b ∈ bs', r a b → f m a = g m b :=
    fun m a ha b hb => hstep m a ha b (hperm.mem_iff.mp hb)
  clear hperm hstep
  induction hmatch generalizing m with
  | nil => rfl
  | cons hab _ ih =>
    rw [List.foldl_cons, List.foldl_cons,
      hstep' m _ List.mem_cons_self _ List.mem_cons_self hab]
    exact ih _ (fun m a ha b hb => hstep' m a (List.mem_cons_of_mem _ ha) b (List.mem_cons_of_mem _ hb))

end SoutherNative.Matching
