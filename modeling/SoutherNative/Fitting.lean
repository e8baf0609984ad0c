import SoutherNative.Widening

set_option autoImplicit false

/-!
# One type standing as another

Standing as is an order on the types of a document, up to how a sum is spelt: a type stands as
itself, what stands as what stands as a third stands as the third, and whatever stands as a type is
a value of it.
-/
namespace SoutherNative.Fitting
open Transport Widening

inductive Fits (declared : Declared) : Ty → Ty → Prop
  | refl (ty : Ty) : Fits declared ty ty
  | nothing (wide : Ty) : Fits declared .nothing wide
  | never (wide : Ty) : Fits declared .never wide
  | option {a b : Ty} (held : Fits declared a b) : Fits declared (.option a) (.option b)
  | list {a b : Ty} (element : Fits declared a b) : Fits declared (.list a) (.list b)
  | set {a b : Ty} (member : Fits declared a b) : Fits declared (.set a) (.set b)
  | map {k v k' v' : Ty} (key : Fits declared k k') (value : Fits declared v v') :
    Fits declared (.map k v) (.map k' v')
  | tuple {as bs : List Ty} (members : List.Forall₂ (Fits declared) as bs) :
    Fits declared (.tuple as) (.tuple bs)
  | fn {takes takes' : List Ty} {answers answers' : Ty}
    (handed : List.Forall₂ (Fits declared) takes' takes) (answer : Fits declared answers answers') :
    Fits declared (.fn takes answers) (.fn takes' answers')
  | cases {a b : Ty} {leaves leaves' : List Case} (narrow : declared.casesOf a = some leaves)
    (wide : declared.casesOf b = some leaves') (within : leaves ⊆ leaves') : Fits declared a b

section

variable {declared : Declared}

lemma all_zip_iff {as bs : List Ty} {p : Ty → Ty → Bool} :
    (as.length = bs.length ∧ (as.zip bs).all (fun pair => p pair.1 pair.2) = true) ↔
      List.Forall₂ (fun a b => p a b = true) as bs := by
  rw [List.forall₂_iff_zip, List.all_eq_true]
  constructor
  · rintro ⟨same, each⟩
    exact ⟨same, fun member => each _ member⟩
  · rintro ⟨same, each⟩
    exact ⟨same, fun pair member => each member⟩

/-- What two types in step are to each other, shown for any two smaller than both lists. -/
lemma each_below {as bs : List Ty} {R S : Ty → Ty → Prop} (each : List.Forall₂ R as bs)
    (made : ∀ x y, sizeOf x + sizeOf y < sizeOf as + sizeOf bs → R x y → S x y) :
    List.Forall₂ S as bs := by
  rw [List.forall₂_iff_zip] at each ⊢
  refine ⟨each.1, ?_⟩
  intro x y pair
  have smaller := Declared.sizeOf_zip pair
  dsimp only at smaller
  exact made x y (by omega) (each.2 pair)

lemma fits_of_cases {a b : Ty} {leaves leaves' : List Case}
    (narrow : declared.casesOf a = some leaves) (wide : declared.casesOf b = some leaves')
    (within : leaves ⊆ leaves') : declared.fits a b = true := by
  unfold Declared.fits
  split_ifs with same
  · rfl
  · split
    all_goals first
      | rfl
      | (simp only [Declared.casesOf] at narrow; cases narrow)
      | skip
    rw [narrow, wide]
    simp only [List.all_eq_true, decide_eq_true_eq]
    exact fun leaf member => within member

lemma fits_nothing (wide : Ty) : declared.fits .nothing wide = true := by
  unfold Declared.fits
  split <;> rfl

lemma fits_never (wide : Ty) : declared.fits .never wide = true := by
  unfold Declared.fits
  split <;> rfl

lemma fits_of_made {a b : Ty} (made : Fits declared a b) : declared.fits a b = true := by
  induction size : sizeOf a + sizeOf b using Nat.strong_induction_on generalizing a b with
  | _ n ih =>
    subst size
    cases made with
    | refl => exact fits_self declared a
    | nothing => exact fits_nothing b
    | never => exact fits_never b
    | option held =>
      rw [fits_option]
      exact ih _ (by simp only [Ty.option.sizeOf_spec]; omega) held rfl
    | list element =>
      rw [fits_list]
      exact ih _ (by simp only [Ty.list.sizeOf_spec]; omega) element rfl
    | set member =>
      rw [fits_set]
      exact ih _ (by simp only [Ty.set.sizeOf_spec]; omega) member rfl
    | map key value =>
      rw [fits_map, Bool.and_eq_true]
      exact ⟨ih _ (by simp only [Ty.map.sizeOf_spec]; omega) key rfl,
        ih _ (by simp only [Ty.map.sizeOf_spec]; omega) value rfl⟩
    | @tuple as bs members =>
      rw [fits_tuple, Bool.and_eq_true, decide_eq_true_eq, all_zip_iff]
      apply each_below members
      intro x y smaller member
      exact ih _ (by simp only [Ty.tuple.sizeOf_spec]; omega) member rfl
    | @fn takes takes' answers answers' handed answer =>
      rw [fits_fn, Bool.and_eq_true]
      refine ⟨?_, ih _ (by simp only [Ty.fn.sizeOf_spec]; omega) answer rfl⟩
      rw [Bool.and_eq_true, decide_eq_true_eq, eq_comm (a := takes.length), all_zip_iff]
      apply each_below handed
      intro x y smaller taken
      exact ih _ (by simp only [Ty.fn.sizeOf_spec]; omega) taken rfl
    | cases narrow wide within => exact fits_of_cases narrow wide within

lemma made_of_fits {a b : Ty} (fits : declared.fits a b = true) : Fits declared a b := by
  induction size : sizeOf a + sizeOf b using Nat.strong_induction_on generalizing a b with
  | _ n ih =>
    subst size
    by_cases same : a = b
    · subst same
      exact .refl a
    · have opened := fits
      unfold Declared.fits at opened
      rw [if_neg same] at opened
      split at opened
      · exact .nothing b
      · exact .never b
      · rw [fits_option] at fits
        exact .option (ih _ (by simp only [Ty.option.sizeOf_spec]; omega) fits rfl)
      · rw [fits_list] at fits
        exact .list (ih _ (by simp only [Ty.list.sizeOf_spec]; omega) fits rfl)
      · rw [fits_set] at fits
        exact .set (ih _ (by simp only [Ty.set.sizeOf_spec]; omega) fits rfl)
      · rw [fits_map, Bool.and_eq_true] at fits
        exact .map (ih _ (by simp only [Ty.map.sizeOf_spec]; omega) fits.1 rfl)
          (ih _ (by simp only [Ty.map.sizeOf_spec]; omega) fits.2 rfl)
      · rw [fits_tuple, Bool.and_eq_true, decide_eq_true_eq, all_zip_iff] at fits
        apply Fits.tuple
        apply each_below fits
        intro x y smaller member
        exact ih _ (by simp only [Ty.tuple.sizeOf_spec]; omega) member rfl
      · rw [fits_fn, Bool.and_eq_true, Bool.and_eq_true, decide_eq_true_eq] at fits
        have handed := all_zip_iff.mp ⟨fits.1.1.symm, fits.1.2⟩
        refine Fits.fn ?_ (ih _ (by simp only [Ty.fn.sizeOf_spec]; omega) fits.2 rfl)
        apply each_below handed
        intro x y smaller taken
        exact ih _ (by simp only [Ty.fn.sizeOf_spec]; omega) taken rfl
      · split at opened
        · rename_i leaves leaves' narrow wide
          refine .cases narrow wide ?_
          intro leaf member
          simpa using List.all_eq_true.mp opened leaf member
        · cases opened

theorem fits_iff (a b : Ty) : declared.fits a b = true ↔ Fits declared a b :=
  ⟨made_of_fits, fits_of_made⟩

lemma forall₂_trans {r : Ty → Ty → Prop} {as bs cs : List Ty}
    (step : ∀ a b c, b ∈ bs → r a b → r b c → r a c) (first : List.Forall₂ r as bs)
    (second : List.Forall₂ r bs cs) : List.Forall₂ r as cs := by
  induction first generalizing cs with
  | nil =>
    cases second
    exact .nil
  | cons head _ ih =>
    cases second with
    | cons head' rest =>
      exact .cons (step _ _ _ (by simp) head head')
        (ih (fun a b c member => step a b c (List.mem_cons_of_mem _ member)) rest)

lemma Fits.trans {a b c : Ty} (first : Fits declared a b) (second : Fits declared b c) :
    Fits declared a c := by
  induction size : sizeOf b using Nat.strong_induction_on generalizing a b c with
  | _ n ih =>
    subst size
    cases first with
    | refl => exact second
    | nothing => exact .nothing c
    | never => exact .never c
    | option held =>
      cases second with
      | refl => exact .option held
      | option held' =>
        exact .option (ih _ (by simp only [Ty.option.sizeOf_spec]; omega) held held' rfl)
      | cases narrow _ _ => cases narrow
    | list element =>
      cases second with
      | refl => exact .list element
      | list element' =>
        exact .list (ih _ (by simp only [Ty.list.sizeOf_spec]; omega) element element' rfl)
      | cases narrow _ _ => cases narrow
    | set member =>
      cases second with
      | refl => exact .set member
      | set member' =>
        exact .set (ih _ (by simp only [Ty.set.sizeOf_spec]; omega) member member' rfl)
      | cases narrow _ _ => cases narrow
    | map key value =>
      cases second with
      | refl => exact .map key value
      | map key' value' =>
        exact .map (ih _ (by simp only [Ty.map.sizeOf_spec]; omega) key key' rfl)
          (ih _ (by simp only [Ty.map.sizeOf_spec]; omega) value value' rfl)
      | cases narrow _ _ => cases narrow
    | tuple members =>
      cases second with
      | refl => exact .tuple members
      | tuple members' =>
        refine .tuple (forall₂_trans ?_ members members')
        intro x y z member one other
        have smaller := List.sizeOf_lt_of_mem member
        exact ih _ (by simp only [Ty.tuple.sizeOf_spec]; omega) one other rfl
      | cases narrow _ _ => cases narrow
    | fn handed answer =>
      cases second with
      | refl => exact .fn handed answer
      | fn handed' answer' =>
        refine .fn (forall₂_trans ?_ handed' handed)
          (ih _ (by simp only [Ty.fn.sizeOf_spec]; omega) answer answer' rfl)
        intro x y z member one other
        have smaller := List.sizeOf_lt_of_mem member
        exact ih _ (by simp only [Ty.fn.sizeOf_spec]; omega) one other rfl
      | cases narrow _ _ => cases narrow
    | cases narrow wide within =>
      cases second with
      | refl => exact .cases narrow wide within
      | cases narrow' wide' within' =>
        rw [wide, Option.some.injEq] at narrow'
        subst narrow'
        exact .cases narrow wide' fun _ member => within' (within member)
      | _ => cases wide

end

/-- A value: of a case, or one of those a structure holds. `A` are the values of cases, each of
    which is of the case it was made as wherever it stands, and `F` the functions. -/
inductive Value (A F : Type)
  | case (value : A)
  | absent
  | present (held : Value A F)
  | list (elements : List (Value A F))
  | set (members : List (Value A F))
  | map (entries : List (Value A F × Value A F))
  | tuple (members : List (Value A F))
  | fn (function : F)

/-- Which values each case has, which each variable stands for, and what a function may answer. -/
structure Interpretation (A F : Type) where
  ofCase : Case → Set A
  ofVar : ℕ → Set (Value A F)
  answers : F → List (Value A F) → Value A F → Prop

section

variable {A F : Type} (declared : Declared) (read : Interpretation A F)

def IsOneOf (leaves : List Case) (value : Value A F) : Prop :=
  ∃ leaf ∈ leaves, ∃ made ∈ read.ofCase leaf, value = .case made

mutual

def IsA : Ty → Value A F → Prop
  | .prim p, value => IsOneOf read [.primitive p] value
  | .ref named, value => IsOneOf read (declared.leavesOf [named]) value
  | .union union, value => IsOneOf read (declared.leavesOf union.cases) value
  | .option ty, value => value = .absent ∨ ∃ held, value = .present held ∧ IsA ty held
  | .list ty, value => ∃ elements, value = .list elements ∧ ∀ element ∈ elements, IsA ty element
  | .set ty, value => ∃ members, value = .set members ∧ ∀ member ∈ members, IsA ty member
  | .map key held, value => ∃ entries, value = .map entries ∧
    ∀ entry ∈ entries, IsA key entry.1 ∧ IsA held entry.2
  | .tuple types, value => ∃ members, value = .tuple members ∧ AreEach types members
  | .fn takes ty, value => ∃ function, value = .fn function ∧
    ∀ handed answer, AreEach takes handed → read.answers function handed answer → IsA ty answer
  | .var n, value => value ∈ read.ofVar n
  | .nothing, _ | .never, _ => False

def AreEach : List Ty → List (Value A F) → Prop
  | [], values => values = []
  | ty :: types, values => ∃ value rest, values = value :: rest ∧ IsA ty value ∧ AreEach types rest

end

variable {declared} {read}

lemma isA_cases {ty : Ty} {leaves : List Case} (cased : declared.casesOf ty = some leaves)
    (value : Value A F) : IsA declared read ty value ↔ IsOneOf read leaves value := by
  cases ty with
  | ref named =>
    cases cased
    rw [IsA]
  | union union =>
    cases cased
    rw [IsA]
  | prim p =>
    cases cased
    rw [IsA]
  | _ => cases cased

lemma areEach_of_fits {as bs : List Ty}
    (each : List.Forall₂ (fun a b => ∀ value, IsA declared read a value → IsA declared read b value)
      as bs) {values : List (Value A F)} (are : AreEach declared read as values) :
    AreEach declared read bs values := by
  induction each generalizing values with
  | nil => exact are
  | cons head _ ih =>
    rw [AreEach] at are ⊢
    obtain ⟨value, rest, same, first, others⟩ := are
    exact ⟨value, rest, same, head value first, ih others⟩

/-- Every value of a type is a value of what it stands as. -/
lemma Fits.sound {a b : Ty} (fits : Fits declared a b) {value : Value A F}
    (isA : IsA declared read a value) : IsA declared read b value := by
  induction size : sizeOf a + sizeOf b using Nat.strong_induction_on generalizing a b value with
  | _ n ih =>
    subst size
    cases fits with
    | refl => exact isA
    | nothing => exact absurd isA (by simp [IsA])
    | never => exact absurd isA (by simp [IsA])
    | option held =>
      rw [IsA] at isA ⊢
      rcases isA with rfl | ⟨inner, rfl, inside⟩
      · exact .inl rfl
      · exact .inr ⟨inner, rfl, ih _ (by simp only [Ty.option.sizeOf_spec]; omega) held inside rfl⟩
    | list element =>
      rw [IsA] at isA ⊢
      obtain ⟨elements, rfl, each⟩ := isA
      refine ⟨elements, rfl, fun inner member => ?_⟩
      exact ih _ (by simp only [Ty.list.sizeOf_spec]; omega) element (each inner member) rfl
    | set member =>
      rw [IsA] at isA ⊢
      obtain ⟨members, rfl, each⟩ := isA
      refine ⟨members, rfl, fun inner there => ?_⟩
      exact ih _ (by simp only [Ty.set.sizeOf_spec]; omega) member (each inner there) rfl
    | map key held =>
      rw [IsA] at isA ⊢
      obtain ⟨entries, rfl, each⟩ := isA
      refine ⟨entries, rfl, fun entry there => ⟨?_, ?_⟩⟩
      · exact ih _ (by simp only [Ty.map.sizeOf_spec]; omega) key (each entry there).1 rfl
      · exact ih _ (by simp only [Ty.map.sizeOf_spec]; omega) held (each entry there).2 rfl
    | @tuple as bs members =>
      rw [IsA] at isA ⊢
      obtain ⟨values, rfl, are⟩ := isA
      refine ⟨values, rfl, areEach_of_fits ?_ are⟩
      rw [List.forall₂_iff_zip] at members ⊢
      refine ⟨members.1, ?_⟩
      intro x y pair value inside
      have smaller := Declared.sizeOf_zip pair
      dsimp only at smaller
      exact ih _ (by simp only [Ty.tuple.sizeOf_spec]; omega) (members.2 pair) inside rfl
    | @fn takes takes' answers answers' handed answer =>
      rw [IsA] at isA ⊢
      obtain ⟨function, rfl, runs⟩ := isA
      refine ⟨function, rfl, ?_⟩
      -- What the position hands is what the function takes, and what it answers is what the
      -- position answers.
      intro values answered are answering
      have taken : AreEach declared read takes values := by
        refine areEach_of_fits ?_ are
        rw [List.forall₂_iff_zip] at handed ⊢
        refine ⟨handed.1, ?_⟩
        intro x y pair value inside
        have smaller := Declared.sizeOf_zip pair
        dsimp only at smaller
        exact ih _ (by simp only [Ty.fn.sizeOf_spec]; omega) (handed.2 pair) inside rfl
      exact ih _ (by simp only [Ty.fn.sizeOf_spec]; omega) answer
        (runs values answered taken answering) rfl
    | cases narrow wide within =>
      rw [isA_cases narrow] at isA
      rw [isA_cases wide]
      obtain ⟨leaf, member, rest⟩ := isA
      exact ⟨leaf, within member, rest⟩

end

inductive CasesSpelt (declared : Declared) : List Case → List Case → Prop
  | nil : CasesSpelt declared [] []
  | keep {rest rest' : List Case} (case : Case) (others : CasesSpelt declared rest rest') :
    CasesSpelt declared (case :: rest) (case :: rest')
  | sum {rest rest' : List Case} {key : String} {cases : Cases}
    (laid : declared.laid key = .sum cases) (others : CasesSpelt declared rest rest') :
    CasesSpelt declared (.declared key :: rest) (cases.cases ++ rest')

inductive Spelt (declared : Declared) : Ty → Ty → Prop
  | refl (ty : Ty) : Spelt declared ty ty
  | sum {key : String} {cases : Cases} (laid : declared.laid key = .sum cases) :
    Spelt declared (.ref (.declared key)) (.union cases)
  | union {union union' : Cases} (members : CasesSpelt declared union.cases union'.cases) :
    Spelt declared (.union union) (.union union')
  | option {a b : Ty} (held : Spelt declared a b) : Spelt declared (.option a) (.option b)
  | list {a b : Ty} (element : Spelt declared a b) : Spelt declared (.list a) (.list b)
  | set {a b : Ty} (member : Spelt declared a b) : Spelt declared (.set a) (.set b)
  | map {k v k' v' : Ty} (key : Spelt declared k k') (value : Spelt declared v v') :
    Spelt declared (.map k v) (.map k' v')
  | tuple {as bs : List Ty} (members : List.Forall₂ (Spelt declared) as bs) :
    Spelt declared (.tuple as) (.tuple bs)
  | fn {takes takes' : List Ty} {answers answers' : Ty}
    (handed : List.Forall₂ (Spelt declared) takes takes') (answer : Spelt declared answers answers') :
    Spelt declared (.fn takes answers) (.fn takes' answers')

section

variable {declared : Declared}

lemma mem_leavesOf_append (cases rest : List Case) (leaf : Case) :
    leaf ∈ declared.leavesOf (cases ++ rest) ↔
      leaf ∈ declared.leavesOf cases ∨ leaf ∈ declared.leavesOf rest := by
  simp only [Declared.mem_leavesOf, List.mem_append, or_and_right, exists_or]

lemma CasesSpelt.leaves {cases cases' : List Case} (spelt : CasesSpelt declared cases cases')
    (leaf : Case) : leaf ∈ declared.leavesOf cases ↔ leaf ∈ declared.leavesOf cases' := by
  induction spelt with
  | nil => rfl
  | keep case _ ih =>
    rw [← List.singleton_append, mem_leavesOf_append, ih, ← mem_leavesOf_append,
      List.singleton_append]
  | sum laid _ ih =>
    rw [← List.singleton_append, mem_leavesOf_append, ih, declared.mem_leavesOf_sum laid,
      ← mem_leavesOf_append]

/-- However its sums are spelt, a type stands as itself, both ways. -/
lemma Spelt.both {a b : Ty} (spelt : Spelt declared a b) :
    Fits declared a b ∧ Fits declared b a := by
  induction size : sizeOf a + sizeOf b using Nat.strong_induction_on generalizing a b with
  | _ n ih =>
    subst size
    cases spelt with
    | refl => exact ⟨.refl a, .refl a⟩
    | sum laid =>
      have same := declared.mem_leavesOf_sum laid
      exact ⟨.cases rfl rfl fun leaf => (same leaf).mp, .cases rfl rfl fun leaf => (same leaf).mpr⟩
    | union members =>
      have same := members.leaves
      exact ⟨.cases rfl rfl fun leaf => (same leaf).mp, .cases rfl rfl fun leaf => (same leaf).mpr⟩
    | option held =>
      have inner := ih _ (by simp only [Ty.option.sizeOf_spec]; omega) held rfl
      exact ⟨.option inner.1, .option inner.2⟩
    | list element =>
      have inner := ih _ (by simp only [Ty.list.sizeOf_spec]; omega) element rfl
      exact ⟨.list inner.1, .list inner.2⟩
    | set member =>
      have inner := ih _ (by simp only [Ty.set.sizeOf_spec]; omega) member rfl
      exact ⟨.set inner.1, .set inner.2⟩
    | map key value =>
      have keys := ih _ (by simp only [Ty.map.sizeOf_spec]; omega) key rfl
      have values := ih _ (by simp only [Ty.map.sizeOf_spec]; omega) value rfl
      exact ⟨.map keys.1 values.1, .map keys.2 values.2⟩
    | @tuple as bs members =>
      have each : List.Forall₂ (fun x y => Fits declared x y ∧ Fits declared y x) as bs := by
        apply each_below members
        intro x y smaller member
        exact ih _ (by simp only [Ty.tuple.sizeOf_spec]; omega) member rfl
      exact ⟨.tuple (each.imp fun _ _ => And.left), .tuple (each.flip.imp fun _ _ => And.right)⟩
    | @fn takes takes' answers answers' handed answer =>
      have inner := ih _ (by simp only [Ty.fn.sizeOf_spec]; omega) answer rfl
      have each : List.Forall₂ (fun x y => Fits declared x y ∧ Fits declared y x) takes takes' := by
        apply each_below handed
        intro x y smaller taken
        exact ih _ (by simp only [Ty.fn.sizeOf_spec]; omega) taken rfl
      exact ⟨.fn (each.flip.imp fun _ _ => And.right) inner.1,
        .fn (each.imp fun _ _ => And.left) inner.2⟩

end

/-- Standing as is a preorder on the types of a document, every value of a type is a value of what
    it stands as, and how the sums in either type are spelt makes no difference to it. -/
theorem fits_preorder (declared : Declared) :
    (∀ a, declared.fits a a = true) ∧
    (∀ a b c, declared.fits a b = true → declared.fits b c = true → declared.fits a c = true) ∧
    (∀ (A F : Type) (read : Interpretation A F) (a b : Ty), declared.fits a b = true →
      ∀ value, IsA declared read a value → IsA declared read b value) ∧
    ∀ a a' b b', Spelt declared a a' → Spelt declared b b' →
      declared.fits a' b' = declared.fits a b := by
  refine ⟨fits_self declared, ?_, ?_, ?_⟩
  · intro a b c first second
    rw [fits_iff] at first second ⊢
    exact first.trans second
  · intro A F read a b fits value isA
    exact ((fits_iff a b).mp fits).sound isA
  · intro a a' b b' one other
    rw [Bool.eq_iff_iff, fits_iff, fits_iff]
    constructor
    · intro fits
      exact one.both.1.trans (fits.trans other.both.2)
    · intro fits
      exact one.both.2.trans (fits.trans other.both.1)

end SoutherNative.Fitting
