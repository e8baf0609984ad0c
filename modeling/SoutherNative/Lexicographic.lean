import Mathlib

set_option autoImplicit false

/-!
# Codes compared lexicographically

Lists over a linear order, compared element by element, where what is coded is told apart before
either code ends. Things are then compared as the lists that code them one after another, and a run
of them that is closed is compared as its parts and then by how many there are.
-/
namespace SoutherNative.Lexicographic

section Compared

variable {T : Type} [LinearOrder T]

def lexical : List T → List T → Ordering
  | [], [] => .eq
  | [], _ :: _ => .lt
  | _ :: _, [] => .gt
  | a :: as, b :: bs => (cmp a b).then (lexical as bs)

theorem lexical_self (as : List T) : lexical as as = .eq := by
  induction as with
  | nil => rfl
  | cons a as ih =>
    rw [lexical, cmp_self_eq_eq, ih]
    rfl

theorem eq_of_lexical {as bs : List T} (h : lexical as bs = .eq) : as = bs := by
  induction as generalizing bs with
  | nil =>
    cases bs with
    | nil => rfl
    | cons b bs => cases h
  | cons a as ih =>
    cases bs with
    | nil => cases h
    | cons b bs =>
      rw [lexical, Ordering.then_eq_eq, cmp_eq_eq_iff] at h
      rw [h.1, ih h.2]

theorem lexical_swap (as bs : List T) : lexical bs as = (lexical as bs).swap := by
  induction as generalizing bs with
  | nil => cases bs <;> rfl
  | cons a as ih =>
    cases bs with
    | nil => rfl
    | cons b bs => rw [lexical, lexical, Ordering.swap_then, ih, cmp_swap]

theorem lexical_trans {as bs cs : List T} (hab : lexical as bs ≠ .gt) (hbc : lexical bs cs ≠ .gt) :
    lexical as cs ≠ .gt := by
  induction as generalizing bs cs with
  | nil => cases cs <;> simp [lexical]
  | cons a as ih =>
    cases bs with
    | nil => exact absurd rfl hab
    | cons b bs =>
      cases cs with
      | nil => exact absurd rfl hbc
      | cons c cs =>
        simp only [lexical, ne_eq, Ordering.then_eq_gt, cmp_eq_gt_iff, cmp_eq_eq_iff, not_or,
          not_lt, not_and] at hab hbc ⊢
        refine ⟨hab.1.trans hbc.1, fun hac => ?_⟩
        obtain rfl : b = c := le_antisymm hbc.1 (hac ▸ hab.1)
        exact ih (hab.2 hac) (hbc.2 rfl)

end Compared

def Parted {T : Type} (as bs : List T) : Prop :=
  as = bs ∨ ∃ front a b as' bs', a ≠ b ∧ as = front ++ a :: as' ∧ bs = front ++ b :: bs'

section Parted

variable {T : Type}

theorem Parted.refl (as : List T) : Parted as as := .inl rfl

theorem Parted.of_ne {a b : T} (h : a ≠ b) (as bs : List T) : Parted (a :: as) (b :: bs) :=
  .inr ⟨[], a, b, as, bs, h, rfl, rfl⟩

theorem Parted.singleton (a b : T) : Parted [a] [b] := by
  by_cases h : a = b
  · exact .inl (by rw [h])
  · exact .of_ne h [] []

theorem Parted.append {as bs cs ds : List T} (h : Parted as bs) (h' : Parted cs ds) :
    Parted (as ++ cs) (bs ++ ds) := by
  rcases h with rfl | ⟨front, a, b, as', bs', hne, rfl, rfl⟩
  · rcases h' with rfl | ⟨front, c, d, cs', ds', hne, rfl, rfl⟩
    · exact .refl _
    · exact .inr ⟨as ++ front, c, d, cs', ds', hne, by simp, by simp⟩
  · exact .inr ⟨front, a, b, as' ++ cs, bs' ++ ds, hne, by simp, by simp⟩

theorem Parted.cons {as bs : List T} (a : T) (h : Parted as bs) : Parted (a :: as) (a :: bs) :=
  (Parted.refl [a]).append h

end Parted

section Runs

variable {A T : Type} [LinearOrder T]

/-- What follows two codes is asked where the codes are the same. -/
theorem Parted.lexical_append {as bs : List T} (h : Parted as bs) (cs ds : List T) :
    lexical (as ++ cs) (bs ++ ds) = (lexical as bs).then (lexical cs ds) := by
  rcases h with rfl | ⟨front, a, b, as', bs', hne, rfl, rfl⟩
  · rw [lexical_self]
    induction as with
    | nil => rfl
    | cons a as ih =>
      rw [List.cons_append, List.cons_append, lexical, cmp_self_eq_eq]
      exact ih
  · induction front with
    | nil =>
      simp only [List.nil_append, List.cons_append, lexical]
      have hcmp : cmp a b ≠ .eq := fun heq => hne (cmp_eq_eq_iff a b |>.mp heq)
      cases heq : cmp a b with
      | eq => exact absurd heq hcmp
      | lt | gt => rfl
    | cons c front ih =>
      simp only [List.cons_append, lexical, cmp_self_eq_eq] at ih ⊢
      exact ih

variable (code : A → List T) (stop : T) {count : ℕ → T}

def Opens : Prop := ∀ a, ∃ first rest, code a = first :: rest ∧ stop < first

variable {code stop}

theorem Opens.parted_runs (h : Opens code stop) {as bs : List A}
    (hparted : ∀ a ∈ as, ∀ b ∈ bs, Parted (code a) (code b)) :
    Parted (as.flatMap code ++ [stop]) (bs.flatMap code ++ [stop]) := by
  induction as generalizing bs with
  | nil =>
    cases bs with
    | nil => exact .refl _
    | cons b bs =>
      obtain ⟨first, rest, hcode, hlt⟩ := h b
      rw [List.flatMap_cons, hcode]
      exact .of_ne hlt.ne _ _
  | cons a as ih =>
    cases bs with
    | nil =>
      obtain ⟨first, rest, hcode, hlt⟩ := h a
      rw [List.flatMap_cons, hcode]
      exact .of_ne hlt.ne' _ _
    | cons b bs =>
      rw [List.flatMap_cons, List.flatMap_cons, List.append_assoc, List.append_assoc]
      refine (hparted a List.mem_cons_self b List.mem_cons_self).append (ih ?_)
      exact fun a ha b hb => hparted a (List.mem_cons_of_mem _ ha) b (List.mem_cons_of_mem _ hb)

/-- Two runs that are closed compare as what stands at the same places in both, and then by how many
    there are. -/
theorem Opens.lexical_runs (h : Opens code stop) (hcount : StrictMono count) {as bs : List A}
    (hparted : ∀ a ∈ as, ∀ b ∈ bs, Parted (code a) (code b)) (n : ℕ) (cs ds : List T) :
    lexical (as.flatMap code ++ stop :: cs) (bs.flatMap code ++ stop :: ds) =
      lexical ((as.zip bs).flatMap (fun pair => code pair.1) ++ count (n + as.length) :: cs)
        ((as.zip bs).flatMap (fun pair => code pair.2) ++ count (n + bs.length) :: ds) := by
  induction as generalizing bs n with
  | nil =>
    cases bs with
    | nil => simp only [List.flatMap_nil, List.zip_nil_left, List.nil_append, lexical, cmp_self_eq_eq,
        List.length_nil]
    | cons b bs =>
      obtain ⟨first, rest, hcode, hlt⟩ := h b
      have hless : count (n + 0) < count (n + (bs.length + 1)) := hcount (by omega)
      simp only [List.flatMap_cons, List.flatMap_nil, List.zip_nil_left, List.nil_append, hcode,
        List.cons_append, List.length_nil, List.length_cons, lexical]
      rw [(cmp_eq_lt_iff stop first).mpr hlt, (cmp_eq_lt_iff _ _).mpr hless]
      rfl
  | cons a as ih =>
    cases bs with
    | nil =>
      obtain ⟨first, rest, hcode, hlt⟩ := h a
      have hless : count (n + 0) < count (n + (as.length + 1)) := hcount (by omega)
      simp only [List.flatMap_cons, List.flatMap_nil, List.zip_nil_right, List.nil_append, hcode,
        List.cons_append, List.length_nil, List.length_cons, lexical]
      rw [(cmp_eq_gt_iff first stop).mpr hlt, (cmp_eq_gt_iff _ _).mpr hless]
      rfl
    | cons b bs =>
      have hab := hparted a List.mem_cons_self b List.mem_cons_self
      have hrest := ih (fun a ha b hb =>
        hparted a (List.mem_cons_of_mem _ ha) b (List.mem_cons_of_mem _ hb)) (n + 1)
      simp only [List.zip_cons_cons, List.flatMap_cons, List.append_assoc, List.length_cons]
      rw [hab.lexical_append, hab.lexical_append, hrest]
      congr 3
      · congr 2
        omega
      · congr 2
        omega

end Runs

/-- A run of numbers that is closed compares as the numbers do. -/
theorem lexical_closed {S T : Type} [LinearOrder S] [LinearOrder T] {f : S → T} (hf : StrictMono f)
    {stop : T} (hstop : ∀ s, stop < f s) (as bs : List S) :
    lexical (as.map f ++ [stop]) (bs.map f ++ [stop]) = lexical as bs := by
  induction as generalizing bs with
  | nil =>
    cases bs with
    | nil =>
      simp only [List.map_nil, List.nil_append, lexical, cmp_self_eq_eq]
      rfl
    | cons b bs =>
      simp only [List.map_nil, List.nil_append, List.map_cons, List.cons_append, lexical]
      rw [(cmp_eq_lt_iff stop (f b)).mpr (hstop b)]
      rfl
  | cons a as ih =>
    cases bs with
    | nil =>
      simp only [List.map_nil, List.nil_append, List.map_cons, List.cons_append, lexical]
      rw [(cmp_eq_gt_iff (f a) stop).mpr (hstop a)]
      rfl
    | cons b bs =>
      simp only [List.map_cons, List.cons_append, lexical, ih, hf.cmp_map_eq]

end SoutherNative.Lexicographic
