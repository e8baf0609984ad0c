import SoutherNative.EqualHash

set_option autoImplicit false

/-!
# Values of a narrower type held as values of a wider

What a plan over two types, one a value of which the checker lets stand as the other, comes to
position by position, and what carrying it out keeps: the value is one of the wider type, two values
are equal as they were, and what is held alike hashes as it did.
-/
namespace SoutherNative.Widening
open Transport HashTrie Values Hashing Equality Restating Typing EqualHash Matching

theorem fits_self (declared : Declared) (ty : Ty) : declared.fits ty ty = true := by
  unfold Declared.fits
  rw [if_pos rfl]

theorem all_zip_attach {as bs : List Ty} (p : Ty → Ty → Bool) :
    (as.zip bs).attach.all (fun pair => p pair.1.1 pair.1.2) =
      (as.zip bs).all (fun pair => p pair.1 pair.2) :=
  all_attach (fun pair : Ty × Ty => p pair.1 pair.2) _

inductive Widens (declared : Declared) : Ty → Ty → Restatement → Prop
  | self (ty : Ty) : Widens declared ty ty .same
  | cases {narrow wide : Ty} {leaves leaves' : List Case} :
      narrow.saysItsCase = true → wide.saysItsCase = true →
      declared.casesOf narrow = some leaves → declared.casesOf wide = some leaves' →
      leaves ⊆ leaves' → Widens declared narrow wide .same
  | noValue {narrow : Ty} (wide : Ty) : narrow.hasNoValue = true → Widens declared narrow wide .same
  | carry (p : Prim) {wide : Ty} {leaves : List Case} : wide.saysItsCase = true →
      declared.casesOf wide = some leaves → .primitive p ∈ leaves →
      Widens declared (.prim p) wide (.carry p)
  | uncarry {narrow : Ty} {leaves : List Case} (p : Prim) : narrow.saysItsCase = true →
      declared.casesOf narrow = some leaves → (∀ leaf ∈ leaves, leaf = .primitive p) →
      Widens declared narrow (.prim p) (.uncarry p)
  | option {a b : Ty} {plan : Restatement} : Widens declared a b plan →
      Widens declared (.option a) (.option b) (Restatement.overParts [plan] (.option plan))
  | list {a b : Ty} {plan : Restatement} : Widens declared a b plan →
      Widens declared (.list a) (.list b) (Restatement.overParts [plan] (.list plan))
  | set {a b : Ty} {plan : Restatement} : Widens declared a b plan →
      Widens declared (.set a) (.set b) (Restatement.overParts [plan] (.set plan))
  | map {k k' v v' : Ty} {key held : Restatement} : Widens declared k k' key →
      Widens declared v v' held →
      Widens declared (.map k v) (.map k' v') (Restatement.overParts [key, held] (.map key held))
  | tuple {as bs : List Ty} {plans : List Restatement} : as.length = bs.length →
      as.length = plans.length →
      (∀ slot ∈ (as.zip bs).zip plans, Widens declared slot.1.1 slot.1.2 slot.2) →
      Widens declared (.tuple as) (.tuple bs) (Restatement.overParts plans (.tuple plans))
  | function {takes takes' : List Ty} {answers answers' : Ty} {plans : List Restatement}
      {plan : Restatement} : declared.fits (.fn takes answers) (.fn takes' answers') = true →
      restatement (.fn takes answers) (.fn takes' answers') =
        .ok (Restatement.overParts (plans ++ [plan]) (.function plans plan)) →
      takes'.length = plans.length →
      (∀ slot ∈ (takes'.zip takes).zip plans, Widens declared slot.1.1 slot.1.2 slot.2) →
      Widens declared answers answers' plan →
      Widens declared (.fn takes answers) (.fn takes' answers')
        (Restatement.overParts (plans ++ [plan]) (.function plans plan))

theorem of_each {as bs : List Ty} {plans : List Restatement} (hlen : as.length = bs.length)
    (h : restatementEach as bs = .ok plans) :
    as.length = plans.length ∧
      ∀ slot ∈ (as.zip bs).zip plans, restatement slot.1.1 slot.1.2 = .ok slot.2 := by
  induction as generalizing bs plans with
  | nil =>
    obtain rfl := List.length_eq_zero_iff.mp hlen.symm
    simp only [restatementEach] at h
    cases h
    simp
  | cons a as ih =>
    cases bs with
    | nil => cases hlen
    | cons b bs =>
      unfold restatementEach at h
      cases hpart : restatement a b with
      | error text =>
        rw [hpart] at h
        cases h
      | ok part =>
        cases hrest : restatementEach as bs with
        | error text =>
          rw [hpart, hrest] at h
          cases h
        | ok parts =>
          rw [hpart, hrest] at h
          cases h
          obtain ⟨hparts, hslots⟩ := ih (Nat.succ.inj hlen) hrest
          refine ⟨by simp [hparts], ?_⟩
          intro slot hslot
          rcases List.mem_cons.mp hslot with rfl | hslot
          · exact hpart
          · exact hslots slot hslot

theorem fits_cases {declared : Declared} {narrow wide : Ty} {leaves leaves' : List Case}
    (hleaves : declared.casesOf narrow = some leaves)
    (hleaves' : declared.casesOf wide = some leaves') (h : declared.fits narrow wide = true) :
    leaves ⊆ leaves' := by
  unfold Declared.fits at h
  split_ifs at h with heq
  · subst heq
    rw [hleaves, Option.some.injEq] at hleaves'
    rw [hleaves']
    exact fun _ h => h
  · split at h
    all_goals first
      | (simp only [Declared.casesOf] at hleaves; cases hleaves)
      | skip
    rw [hleaves, hleaves'] at h
    intro leaf hleaf
    simpa using List.all_eq_true.mp h leaf hleaf

theorem casesOf_cased (declared : Declared) {ty : Ty} (h : ty.saysItsCase = true) :
    ∃ leaves, declared.casesOf ty = some leaves := by
  cases ty with
  | ref named => exact ⟨_, rfl⟩
  | union members => exact ⟨_, rfl⟩
  | _ => cases h

theorem fits_option (declared : Declared) (a b : Ty) :
    declared.fits (.option a) (.option b) = declared.fits a b := by
  rw [Declared.fits]
  by_cases h : a = b
  · simp [h, fits_self]
  · simp [h]

theorem fits_list (declared : Declared) (a b : Ty) :
    declared.fits (.list a) (.list b) = declared.fits a b := by
  rw [Declared.fits]
  by_cases h : a = b
  · simp [h, fits_self]
  · simp [h]

theorem fits_set (declared : Declared) (a b : Ty) :
    declared.fits (.set a) (.set b) = declared.fits a b := by
  rw [Declared.fits]
  by_cases h : a = b
  · simp [h, fits_self]
  · simp [h]

theorem fits_map (declared : Declared) (k v k' v' : Ty) :
    declared.fits (.map k v) (.map k' v') = (declared.fits k k' && declared.fits v v') := by
  rw [Declared.fits]
  by_cases h : k = k' ∧ v = v'
  · simp [h.1, h.2, fits_self]
  · rw [if_neg (by simpa using h)]

theorem fits_zip_self (declared : Declared) (types : List Ty) :
    (types.zip types).all (fun pair => declared.fits pair.1 pair.2) = true := by
  induction types with
  | nil => rfl
  | cons ty types ih => rw [List.zip_cons_cons, List.all_cons, fits_self, ih, Bool.true_and]

theorem fits_tuple (declared : Declared) (as bs : List Ty) :
    declared.fits (.tuple as) (.tuple bs) =
      (as.length = bs.length && (as.zip bs).all (fun pair => declared.fits pair.1 pair.2)) := by
  rw [Declared.fits]
  by_cases h : as = bs
  · subst h
    simp only [if_true, fits_zip_self, decide_true, Bool.true_and]
  · rw [if_neg (by simpa using h)]
    exact congrArg _ (all_zip_attach declared.fits)

theorem fits_fn (declared : Declared) (takes takes' : List Ty) (answers answers' : Ty) :
    declared.fits (.fn takes answers) (.fn takes' answers') =
      (takes.length = takes'.length &&
        (takes'.zip takes).all (fun pair => declared.fits pair.1 pair.2) &&
        declared.fits answers answers') := by
  rw [Declared.fits]
  by_cases h : takes = takes' ∧ answers = answers'
  · obtain ⟨rfl, rfl⟩ := h
    simp only [if_true, fits_zip_self, fits_self, decide_true, Bool.true_and]
  · rw [if_neg (by simpa using h)]
    exact congrArg (· && _) (congrArg _ (all_zip_attach declared.fits))

theorem of_map {ε α β : Type} {x : Except ε α} {f : α → β} {b : β} (h : x.map f = .ok b) :
    ∃ a, x = .ok a ∧ f a = b := by
  cases x with
  | error e => cases h
  | ok a => exact ⟨a, rfl, Except.ok.inj h⟩

theorem of_bind {ε α β : Type} {x : Except ε α} {f : α → Except ε β} {b : β}
    (h : x.bind f = .ok b) : ∃ a, x = .ok a ∧ f a = .ok b := by
  cases x with
  | error e => cases h
  | ok a => exact ⟨a, rfl, h⟩

theorem widens_apart {declared : Declared} {narrow wide : Ty} {plan : Restatement}
    (hfits : declared.fits narrow wide = true) (h : restatementApart narrow wide = .ok plan) :
    Widens declared narrow wide plan := by
  unfold restatementApart at h
  split at h
  · next p =>
    split_ifs at h with hcased
    · cases h
      obtain ⟨leaves, hleaves⟩ := casesOf_cased declared hcased
      exact .carry p hcased hleaves (fits_cases rfl hleaves hfits List.mem_cons_self)
    · split at h <;> cases h
  · cases h
  · next p _ _ =>
    split_ifs at h with hcased
    cases h
    obtain ⟨leaves, hleaves⟩ := casesOf_cased declared hcased
    refine .uncarry p hcased hleaves fun leaf hleaf => ?_
    exact List.mem_singleton.mp (fits_cases hleaves rfl hfits hleaf)
  · cases h
  · cases h

/-- What the checker lets stand as a wider type, and a plan is made for, widens by that plan. -/
theorem widens_of {declared : Declared} {narrow wide : Ty} {plan : Restatement}
    (hfits : declared.fits narrow wide = true) (h : restatement narrow wide = .ok plan) :
    Widens declared narrow wide plan := by
  induction hn : sizeOf narrow + sizeOf wide using Nat.strong_induction_on
    generalizing narrow wide plan with
  | _ n ih =>
    subst hn
    by_cases heq : narrow = wide
    · subst heq
      unfold restatement at h
      simp only [decide_true, Bool.true_or, if_true, Except.ok.injEq] at h
      subst h
      exact .self narrow
    · have hplan := h
      unfold restatement at h
      split_ifs at h with hcased
      · cases h
        simp only [heq, decide_false, Bool.false_or, Bool.and_eq_true] at hcased
        obtain ⟨leaves, hleaves⟩ := casesOf_cased declared hcased.1
        obtain ⟨leaves', hleaves'⟩ := casesOf_cased declared hcased.2
        exact .cases hcased.1 hcased.2 hleaves hleaves' (fits_cases hleaves hleaves' hfits)
      · split at h
        · cases h
          exact .noValue wide rfl
        · cases h
          exact .noValue wide rfl
        · obtain ⟨part, hpart, rfl⟩ := of_map h
          rw [fits_option] at hfits
          exact .option (ih _ (by simp only [Ty.option.sizeOf_spec]; omega) hfits hpart rfl)
        · obtain ⟨part, hpart, rfl⟩ := of_map h
          rw [fits_list] at hfits
          exact .list (ih _ (by simp only [Ty.list.sizeOf_spec]; omega) hfits hpart rfl)
        · obtain ⟨part, hpart, rfl⟩ := of_map h
          rw [fits_set] at hfits
          exact .set (ih _ (by simp only [Ty.set.sizeOf_spec]; omega) hfits hpart rfl)
        · obtain ⟨key, hkey, h⟩ := of_bind h
          obtain ⟨held, hheld, rfl⟩ := of_map h
          rw [fits_map, Bool.and_eq_true] at hfits
          exact .map (ih _ (by simp only [Ty.map.sizeOf_spec]; omega) hfits.1 hkey rfl)
            (ih _ (by simp only [Ty.map.sizeOf_spec]; omega) hfits.2 hheld rfl)
        · next as bs =>
          split_ifs at h with hlen
          obtain ⟨plans, hplans, rfl⟩ := of_map h
          rw [not_not] at hlen
          obtain ⟨hparts, hslots⟩ := of_each hlen hplans
          rw [fits_tuple, Bool.and_eq_true, List.all_eq_true] at hfits
          refine .tuple hlen hparts fun slot hslot => ?_
          have hpair := (List.of_mem_zip hslot).1
          have hsize := Declared.sizeOf_zip hpair
          exact ih _ (by simp only [Ty.tuple.sizeOf_spec]; omega) (hfits.2 _ hpair)
            (hslots slot hslot) rfl
        · next takes answers takes' answers' =>
          split_ifs at h with hlen
          obtain ⟨plans, hplans, h⟩ := of_bind h
          obtain ⟨plan, hanswers, rfl⟩ := of_map h
          rw [not_not] at hlen
          obtain ⟨hparts, hslots⟩ := of_each hlen.symm hplans
          have hfn := hfits
          rw [fits_fn, Bool.and_eq_true, Bool.and_eq_true, List.all_eq_true] at hfits
          refine .function hfn hplan hparts (fun slot hslot => ?_)
            (ih _ (by simp only [Ty.fn.sizeOf_spec]; omega) hfits.2 hanswers rfl)
          have hpair := (List.of_mem_zip hslot).1
          have hsize := Declared.sizeOf_zip hpair
          exact ih _ (by simp only [Ty.fn.sizeOf_spec]; omega) (hfits.1.2 _ hpair)
            (hslots slot hslot) rfl
        · exact widens_apart hfits h

variable {R Key : Type} [LinearOrder Key] {lowering : Lowerings R Key}

structure Carries (lowering : Lowerings R Key) (narrow wide : Ty) (plan : Restatement) : Prop where
  typed : ∀ value, HasType lowering narrow value →
    HasType lowering wide (carriedOut lowering plan narrow wide value)
  equal : ∀ one other, HasType lowering narrow one → HasType lowering narrow other →
    Equality.equal lowering wide (carriedOut lowering plan narrow wide one)
        (carriedOut lowering plan narrow wide other) =
      Equality.equal lowering narrow one other
  hash : plan.isSame = true → ∀ value, HasType lowering narrow value →
    Hashing.hash lowering wide value = Hashing.hash lowering narrow value

theorem carriedOut_same (narrow wide : Ty) (value : Val R) :
    carriedOut lowering .same narrow wide value = value := by
  rw [carriedOut]

theorem of_isSame {plan : Restatement} (h : plan.isSame = true) : plan = .same := by
  cases plan <;> first | rfl | cases h

theorem carries_self (ty : Ty) : Carries lowering ty ty .same where
  typed value h := by rwa [carriedOut_same]
  equal one other _ _ := by rw [carriedOut_same, carriedOut_same]
  hash _ _ _ := rfl

theorem carries_noValue {narrow : Ty} (wide : Ty) (h : narrow.hasNoValue = true) :
    Carries lowering narrow wide .same := by
  have hnone {value : Val R} (htyped : HasType lowering narrow value) : False := by
    have := htyped.hasNoValue
    rw [h] at this
    cases this
  exact ⟨fun _ htyped => (hnone htyped).elim, fun _ _ htyped _ => (hnone htyped).elim,
    fun _ _ htyped => (hnone htyped).elim⟩

theorem carries_cases {narrow wide : Ty} {leaves leaves' : List Case}
    (hcased : narrow.saysItsCase = true) (hcased' : wide.saysItsCase = true)
    (hleaves : lowering.declared.casesOf narrow = some leaves)
    (hleaves' : lowering.declared.casesOf wide = some leaves') (hsub : leaves ⊆ leaves') :
    Carries lowering narrow wide .same := by
  have htagged {value : Val R} (h : HasType lowering narrow value) :
      ∃ which slots, value = .tagged which slots ∧ which ∈ leaves ∧
        HasTypes lowering (bodyOf lowering.declared which) slots := by
    obtain ⟨leaves₁, which, slots, rfl, hcases, hwhich, hslots⟩ := h.tagged_inv hcased
    rw [hleaves, Option.some.injEq] at hcases
    subst hcases
    exact ⟨which, slots, rfl, hwhich, hslots⟩
  constructor
  · intro value h
    obtain ⟨which, slots, rfl, hwhich, hslots⟩ := htagged h
    rw [carriedOut_same]
    obtain ⟨hlen, hslots⟩ := hasTypes_iff.mp hslots
    exact .tagged hcased' hleaves' (hsub hwhich) hlen hslots
  · intro one other h h'
    obtain ⟨which, slots, rfl, hwhich, -⟩ := htagged h
    obtain ⟨which', slots', rfl, hwhich', -⟩ := htagged h'
    rw [carriedOut_same, carriedOut_same, Bool.eq_iff_iff,
      equal_tagged_iff hcased' hleaves' (hsub hwhich) (hsub hwhich'),
      equal_tagged_iff hcased hleaves hwhich hwhich']
  · intro _ value h
    obtain ⟨which, slots, rfl, hwhich, -⟩ := htagged h
    rw [hash_tagged lowering slots (caseOf_eq lowering hcased' hleaves' (hsub hwhich)),
      hash_tagged lowering slots (caseOf_eq lowering hcased hleaves hwhich)]

theorem carries_carry (p : Prim) {wide : Ty} {leaves : List Case} (hcased : wide.saysItsCase = true)
    (hleaves : lowering.declared.casesOf wide = some leaves) (hmem : Case.primitive p ∈ leaves) :
    Carries lowering (.prim p) wide (.carry p) := by
  have hcarried (value : Val R) :
      carriedOut lowering (.carry p) (.prim p) wide value = .tagged (.primitive p) [value] := by
    rw [carriedOut]
  constructor
  · intro value h
    rw [hcarried]
    refine .tagged hcased hleaves hmem rfl fun slot hslot => ?_
    rw [List.mem_singleton.mp hslot]
    exact h
  · intro one other _ _
    rw [hcarried, hcarried, Bool.eq_iff_iff, equal_tagged_iff hcased hleaves hmem hmem]
    simp [bodyOf, slotsEqual]
  · intro hsame
    cases hsame

/-- A value of a type each case of which is one primitive carries it. -/
theorem tagged_of_all {narrow : Ty} {leaves : List Case} {p : Prim}
    (hcased : narrow.saysItsCase = true) (hleaves : lowering.declared.casesOf narrow = some leaves)
    (hall : ∀ leaf ∈ leaves, leaf = .primitive p) {value : Val R}
    (h : HasType lowering narrow value) :
    ∃ held, value = .tagged (.primitive p) [held] ∧ .primitive p ∈ leaves ∧
      HasType lowering (.prim p) held := by
  obtain ⟨leaves₁, which, slots, rfl, hcases, hwhich, hslots⟩ := h.tagged_inv hcased
  rw [hleaves, Option.some.injEq] at hcases
  subst hcases
  obtain rfl := hall which hwhich
  obtain ⟨held, rest, hheld, hrest, rfl⟩ := List.forall₂_cons_left_iff.mp hslots
  rw [List.forall₂_nil_left_iff.mp hrest]
  exact ⟨held, rfl, hwhich, hheld⟩

theorem carries_uncarry {narrow : Ty} {leaves : List Case} (p : Prim)
    (hcased : narrow.saysItsCase = true) (hleaves : lowering.declared.casesOf narrow = some leaves)
    (hall : ∀ leaf ∈ leaves, leaf = .primitive p) :
    Carries lowering narrow (.prim p) (.uncarry p) := by
  have htagged {value : Val R} (h : HasType lowering narrow value) :=
    tagged_of_all hcased hleaves hall h
  constructor
  · intro value h
    obtain ⟨held, rfl, -, hheld⟩ := htagged h
    rwa [carriedOut]
  · intro one other h h'
    obtain ⟨held, rfl, hwhich, -⟩ := htagged h
    obtain ⟨held', rfl, -, -⟩ := htagged h'
    rw [carriedOut, carriedOut, Bool.eq_iff_iff, equal_tagged_iff hcased hleaves hwhich hwhich]
    simp [bodyOf, slotsEqual]
  · intro hsame
    cases hsame

theorem overParts_one (plan made : Restatement) :
    (plan = .same ∧ Restatement.overParts [plan] made = .same) ∨
      (plan.isSame = false ∧ Restatement.overParts [plan] made = made) := by
  cases h : plan.isSame with
  | true => exact .inl ⟨of_isSame h, by simp [Restatement.overParts, h]⟩
  | false => exact .inr ⟨rfl, by simp [Restatement.overParts, h]⟩

theorem carriedOut_absent (plan : Restatement) (a b : Ty) :
    carriedOut lowering (Restatement.overParts [plan] (.option plan)) (.option a) (.option b)
      .absent = .absent := by
  obtain ⟨-, h⟩ | ⟨-, h⟩ := overParts_one plan (.option plan) <;> rw [h, carriedOut] <;>
    simp

theorem carriedOut_held (plan : Restatement) (a b : Ty) (value : Val R) :
    carriedOut lowering (Restatement.overParts [plan] (.option plan)) (.option a) (.option b)
      (.held value) = .held (carriedOut lowering plan a b value) := by
  obtain ⟨rfl, h⟩ | ⟨-, h⟩ := overParts_one plan (.option plan)
  · rw [h, carriedOut_same, carriedOut_same]
  · rw [h, carriedOut]

theorem carriedOut_list (plan : Restatement) (a b : Ty) (elements : List (Val R)) :
    carriedOut lowering (Restatement.overParts [plan] (.list plan)) (.list a) (.list b)
      (.list elements) = .list (elements.map (carriedOut lowering plan a b)) := by
  obtain ⟨rfl, h⟩ | ⟨-, h⟩ := overParts_one plan (.list plan)
  · rw [h, carriedOut_same, List.map_congr_left (g := id) (fun it _ => carriedOut_same a b it),
      List.map_id]
  · rw [h, carriedOut]

theorem isSame_overParts {plan made : Restatement} (hmade : made.isSame = false)
    (h : (Restatement.overParts [plan] made).isSame = true) : plan.isSame = true := by
  obtain ⟨rfl, -⟩ | ⟨-, hover⟩ := overParts_one plan made
  · rfl
  · rw [hover, hmade] at h
    cases h

theorem carries_option {a b : Ty} {plan : Restatement} (h : Carries lowering a b plan) :
    Carries lowering (.option a) (.option b) (Restatement.overParts [plan] (.option plan)) := by
  have htyped : ∀ value, HasType lowering (.option a) value → HasType lowering (.option b)
      (carriedOut lowering (Restatement.overParts [plan] (.option plan)) (.option a) (.option b)
        value) := by
    intro value hvalue
    obtain rfl | ⟨held, rfl, hheld⟩ := hvalue.option_inv
    · rw [carriedOut_absent]
      exact .absent b
    · rw [carriedOut_held]
      exact .held (h.typed held hheld)
  refine ⟨htyped, fun one other hone hother => ?_, fun hsame value hvalue => ?_⟩
  · rw [Bool.eq_iff_iff, equal_option_iff (htyped one hone) (htyped other hother),
      equal_option_iff hone hother]
    obtain rfl | ⟨held, rfl, hheld⟩ := hone.option_inv
    · obtain rfl | ⟨held', rfl, hheld'⟩ := hother.option_inv
      · simp [carriedOut_absent]
      · simp [carriedOut_absent, carriedOut_held]
    · obtain rfl | ⟨held', rfl, hheld'⟩ := hother.option_inv
      · simp [carriedOut_absent, carriedOut_held]
      · simp [carriedOut_held, h.typed held hheld, h.typed held' hheld', hheld, hheld',
          h.equal held held' hheld hheld']
  · have hplan := isSame_overParts rfl hsame
    obtain rfl | ⟨held, rfl, hheld⟩ := hvalue.option_inv
    · rw [hash_absent, hash_absent]
    · have hwide := h.typed held hheld
      rw [of_isSame hplan, carriedOut_same] at hwide
      rw [hash_held, hash_held, hwide.reached, hheld.reached, h.hash hplan held hheld]

theorem equal_list_typed {element : Ty} {as bs : List (Val R)}
    (has : ∀ it ∈ as, HasType lowering element it) (hbs : ∀ it ∈ bs, HasType lowering element it) :
    Equality.equal lowering (.list element) (.list as) (.list bs) =
      (as.length = bs.length &&
        (as.zip bs).all (fun pair => Equality.equal lowering element pair.1 pair.2)) := by
  rw [equal_list]
  cases hnone : element.hasNoValue with
  | true =>
    rw [elements_nil has hnone, elements_nil hbs hnone]
    rfl
  | false => rw [Bool.false_or]

theorem carries_list {a b : Ty} {plan : Restatement} (h : Carries lowering a b plan) :
    Carries lowering (.list a) (.list b) (Restatement.overParts [plan] (.list plan)) := by
  have helements {elements : List (Val R)} (helements : ∀ it ∈ elements, HasType lowering a it) :
      ∀ it ∈ elements.map (carriedOut lowering plan a b), HasType lowering b it := by
    intro it hit
    obtain ⟨element, helement, rfl⟩ := List.mem_map.mp hit
    exact h.typed element (helements element helement)
  constructor
  · intro value hvalue
    obtain ⟨elements, rfl, htyped⟩ := hvalue.list_inv
    rw [carriedOut_list]
    exact .list (helements htyped)
  · intro one other hone hother
    obtain ⟨as, rfl, has⟩ := hone.list_inv
    obtain ⟨bs, rfl, hbs⟩ := hother.list_inv
    rw [carriedOut_list, carriedOut_list, equal_list_typed (helements has) (helements hbs),
      equal_list_typed has hbs, List.length_map, List.length_map, List.zip_map, List.all_map]
    congr 1
    rw [Bool.eq_iff_iff, List.all_eq_true, List.all_eq_true]
    refine forall₂_congr fun pair hpair => ?_
    rw [← h.equal pair.1 pair.2 (has _ (List.of_mem_zip hpair).1)
      (hbs _ (List.of_mem_zip hpair).2)]
    rfl
  · intro hsame value hvalue
    have hplan := isSame_overParts rfl hsame
    obtain ⟨elements, rfl, htyped⟩ := hvalue.list_inv
    rw [hash_list, hash_list]
    cases elements with
    | nil => simp
    | cons element elements =>
      have hwide := h.typed element (htyped element List.mem_cons_self)
      rw [of_isSame hplan, carriedOut_same] at hwide
      rw [hwide.reached, (htyped element List.mem_cons_self).reached]
      refine List.foldl_ext _ _ _ fun hashed it hit => ?_
      rw [h.hash hplan it (htyped it hit)]

theorem setFromList_distinct {member : Ty} {list : List (Val R)}
    (h : list.Pairwise (fun a b => Equality.equal lowering member a b = false)) :
    setFromList lowering member list =
      list.map (fun it => ⟨Hashing.hash lowering member it, it, 0⟩) := by
  have hput : list.foldl (fun members it =>
      AssociationList.add (Equality.equal lowering member) members it (0 : Int64)) [] =
      list.map (fun it => (it, 0)) := by
    rw [← List.foldl_map (f := fun it => (it, (0 : Int64)))
      (g := fun members it => AssociationList.add (Equality.equal lowering member) members it.1 it.2),
      AssociationList.foldl_distinct (Equality.equal lowering member)]
    · rfl
    · intro l p hp
      rw [AssociationList.add, if_neg (by simp [hp])]
    · exact List.pairwise_map.mpr h
  rw [setFromList, hput, List.map_map]
  rfl

theorem mapFromList_distinct {key : Ty} {list : List (Val R × Val R)}
    (h : list.Pairwise (fun a b => Equality.equal lowering key a.1 b.1 = false)) :
    mapFromList lowering key list =
      list.map (fun pair => ⟨Hashing.hash lowering key pair.1, pair.1, pair.2⟩) := by
  rw [mapFromList, AssociationList.foldl_distinct (Equality.equal lowering key)
    (fun entries pair =>
      AssociationList.replace (Equality.equal lowering key) entries pair.1 pair.2)]
  · rfl
  · intro l p hp
    rw [AssociationList.replace, if_neg (by simp [hp])]
  · exact h

def carriedEntry {V W : Type} (lowering : Lowerings R Key) (plan : Restatement) (a b : Ty)
    (value : V → W) (entry : Entry (Val R) V) : Entry (Val R) W :=
  ⟨Hashing.hash lowering b (carriedOut lowering plan a b entry.key),
    carriedOut lowering plan a b entry.key, value entry.value⟩

section Keys

variable {a b : Ty} {plan : Restatement} (h : Carries lowering a b plan)

include h

theorem carried_apart {V : Type} {entries : List (Entry (Val R) V)}
    (hkept : Kept lowering a entries) :
    (entries.map (fun entry => carriedOut lowering plan a b entry.key)).Pairwise
      (fun x y => Equality.equal lowering b x y = false) := by
  refine List.pairwise_map.mpr (hkept.apart.imp_of_mem fun {x y} hx hy hxy => ?_)
  rw [h.equal x.key y.key (hkept.keys x hx) (hkept.keys y hy), hxy]

theorem carried_kept {V W : Type} {entries : List (Entry (Val R) V)}
    (hkept : Kept lowering a entries) (value : V → W) :
    Kept lowering b (entries.map (carriedEntry lowering plan a b value)) := by
  constructor
  · intro entry hentry
    obtain ⟨it, -, rfl⟩ := List.mem_map.mp hentry
    rfl
  · intro entry hentry
    obtain ⟨it, hit, rfl⟩ := List.mem_map.mp hentry
    exact h.typed it.key (hkept.keys it hit)
  · exact List.pairwise_map.mpr (List.pairwise_map.mp (carried_apart h hkept))

theorem kept_same {V : Type} {entries : List (Entry (Val R) V)} (hplan : plan = .same)
    (hkept : Kept lowering a entries) : Kept lowering b entries := by
  subst hplan
  refine ⟨fun entry hentry => ?_, fun entry hentry => ?_, ?_⟩
  · rw [hkept.hash entry hentry, h.hash rfl entry.key (hkept.keys entry hentry)]
  · have := h.typed entry.key (hkept.keys entry hentry)
    rwa [carriedOut_same] at this
  · refine hkept.apart.imp_of_mem fun {x y} hx hy hxy => ?_
    have := h.equal x.key y.key (hkept.keys x hx) (hkept.keys y hy)
    rw [carriedOut_same, carriedOut_same] at this
    rw [this, hxy]

end Keys

/-- An entry is the one asked for where the keys are equal, in a listing under its own hasher. -/
theorem sameMember_iff {V : Type} {member : Ty} {as bs : List (Entry (Val R) V)}
    (has : Kept lowering member as) (hbs : Kept lowering member bs) {x y : Entry (Val R) V}
    (hx : x ∈ as) (hy : y ∈ bs) :
    SameMember lowering member x y ↔ Equality.equal lowering member y.key x.key = true := by
  refine and_iff_right_of_imp fun hequal => ?_
  rw [has.hash x hx, hbs.hash y hy]
  exact hash_of_equal (hbs.keys y hy) (has.keys x hx) hequal

theorem covered_map {A B : Type} {r : A → A → Prop} {s : B → B → Prop} {as bs : List A} {f : A → B}
    (h : ∀ x ∈ as, ∀ y ∈ bs, s (f x) (f y) ↔ r x y) :
    Covered s (as.map f) (bs.map f) ↔ Covered r as bs := by
  simp only [Covered, List.length_map, List.mem_map, forall_exists_index, and_imp,
    forall_apply_eq_imp_iff₂, exists_exists_and_eq_and]
  refine and_congr_right fun _ => forall₂_congr fun x hx => ?_
  exact exists_congr fun y => and_congr_right fun hy => h x hx y hy

theorem equal_set_typed {member : Ty} {as bs : List (Entry (Val R) Int64)}
    (has : Kept lowering member as) (hbs : Kept lowering member bs) :
    Equality.equal lowering (.set member) (.set as) (.set bs) = true ↔
      Covered (SameMember lowering member) as bs := by
  rw [equal_set, Bool.or_eq_true, setEqual_iff]
  refine or_iff_right_of_imp fun hnone => ?_
  rw [entries_nil has hnone, entries_nil hbs hnone]
  exact ⟨rfl, fun a ha => by cases ha⟩

theorem HasType.of_set {member : Ty} {entries : List (Entry (Val R) Int64)}
    (h : Kept lowering member entries) : HasType lowering (.set member) (.set entries) :=
  .set h.hash h.keys h.apart

theorem HasType.of_map {key held : Ty} {entries : List (Entry (Val R) (Val R))}
    (h : Kept lowering key entries) (hvalues : ∀ entry ∈ entries, HasType lowering held entry.value) :
    HasType lowering (.map key held) (.map entries) :=
  .map h.hash h.keys hvalues h.apart

theorem carriedOut_set {a b : Ty} {plan : Restatement} (h : Carries lowering a b plan)
    {entries : List (Entry (Val R) Int64)} (hkept : Kept lowering a entries) :
    carriedOut lowering (.set plan) (.set a) (.set b) (.set entries) =
      .set (entries.map (carriedEntry lowering plan a b (fun _ => 0))) := by
  rw [carriedOut, setFromList_distinct (carried_apart h hkept), List.map_map]
  rfl

/-- Two entries are the same asked for under the wider type where they were under the narrower. -/
theorem sameMember_carried {V W : Type} {a b : Ty} {plan : Restatement} (h : Carries lowering a b plan)
    {as bs : List (Entry (Val R) V)} (has : Kept lowering a as) (hbs : Kept lowering a bs)
    (value : V → W) {x y : Entry (Val R) V} (hx : x ∈ as) (hy : y ∈ bs) :
    SameMember lowering b (carriedEntry lowering plan a b value x)
        (carriedEntry lowering plan a b value y) ↔ SameMember lowering a x y := by
  rw [sameMember_iff (carried_kept h has value)
      (carried_kept h hbs value) (List.mem_map_of_mem hx)
      (List.mem_map_of_mem hy), sameMember_iff has hbs hx hy]
  exact iff_of_eq (congrArg (· = true) (h.equal y.key x.key (hbs.keys y hy) (has.keys x hx)))

theorem sameMember_same {V : Type} {a b : Ty} (h : Carries lowering a b .same)
    {as bs : List (Entry (Val R) V)} (has : Kept lowering a as) (hbs : Kept lowering a bs)
    {x y : Entry (Val R) V} (hx : x ∈ as) (hy : y ∈ bs) :
    SameMember lowering b x y ↔ SameMember lowering a x y := by
  have hequal := h.equal y.key x.key (hbs.keys y hy) (has.keys x hx)
  rw [carriedOut_same, carriedOut_same] at hequal
  rw [SameMember, SameMember, hequal]

theorem carries_set {a b : Ty} {plan : Restatement} (h : Carries lowering a b plan) :
    Carries lowering (.set a) (.set b) (Restatement.overParts [plan] (.set plan)) := by
  obtain ⟨rfl, hover⟩ | ⟨-, hover⟩ := overParts_one plan (.set plan)
  · rw [hover]
    constructor
    · intro value hvalue
      obtain ⟨entries, rfl, hkept⟩ := hvalue.set_inv
      rw [carriedOut_same]
      exact HasType.of_set (kept_same h rfl hkept)
    · intro one other hone hother
      obtain ⟨as, rfl, has⟩ := hone.set_inv
      obtain ⟨bs, rfl, hbs⟩ := hother.set_inv
      rw [carriedOut_same, carriedOut_same, Bool.eq_iff_iff,
        equal_set_typed (kept_same h rfl has) (kept_same h rfl hbs), equal_set_typed has hbs]
      have := covered_map (f := id) (s := SameMember lowering b)
        (fun x hx y hy => sameMember_same h has hbs hx hy)
      rwa [List.map_id, List.map_id] at this
    · intro _ value hvalue
      obtain ⟨entries, rfl, -⟩ := hvalue.set_inv
      rw [hash_set, hash_set]
  · rw [hover]
    constructor
    · intro value hvalue
      obtain ⟨entries, rfl, hkept⟩ := hvalue.set_inv
      rw [carriedOut_set h hkept]
      exact HasType.of_set (carried_kept h hkept (fun _ => 0))
    · intro one other hone hother
      obtain ⟨as, rfl, has⟩ := hone.set_inv
      obtain ⟨bs, rfl, hbs⟩ := hother.set_inv
      rw [carriedOut_set h has, carriedOut_set h hbs, Bool.eq_iff_iff,
        equal_set_typed (carried_kept h has (fun _ => 0)) (carried_kept h hbs (fun _ => 0)),
        equal_set_typed has hbs]
      exact covered_map fun x hx y hy => sameMember_carried h has hbs (fun _ => 0) hx hy
    · intro hsame
      cases hsame

theorem overParts_two (key held made : Restatement) :
    (key = .same ∧ held = .same ∧ Restatement.overParts [key, held] made = .same) ∨
      Restatement.overParts [key, held] made = made := by
  cases hkey : key.isSame with
  | true =>
    cases hheld : held.isSame with
    | true => exact .inl ⟨of_isSame hkey, of_isSame hheld, by simp [Restatement.overParts, hkey, hheld]⟩
    | false => exact .inr (by simp [Restatement.overParts, hheld])
  | false => exact .inr (by simp [Restatement.overParts, hkey])

theorem equal_map_typed {key held : Ty} {as bs : List (Entry (Val R) (Val R))}
    (has : Kept lowering key as) (hbs : Kept lowering key bs)
    (hvas : ∀ entry ∈ as, HasType lowering held entry.value)
    (hvbs : ∀ entry ∈ bs, HasType lowering held entry.value) :
    Equality.equal lowering (.map key held) (.map as) (.map bs) = true ↔
      Covered (SameEntry lowering key held) as bs := by
  rw [equal_map, Bool.or_eq_true,
    mapEqual_iff (lawful (sizeOf as + sizeOf bs + 1)) has hbs (.of_lt (by omega)) (.of_lt (by omega))]
  refine or_iff_right_of_imp fun hnone => ?_
  rw [pairs_nil has hvas hnone, pairs_nil hbs hvbs hnone]
  exact ⟨rfl, fun a ha => by cases ha⟩

theorem carriedOut_map {k k' v v' : Ty} {key held : Restatement} (h : Carries lowering k k' key)
    {entries : List (Entry (Val R) (Val R))} (hkept : Kept lowering k entries) :
    carriedOut lowering (.map key held) (.map k v) (.map k' v') (.map entries) =
      .map (entries.map (carriedEntry lowering key k k' (carriedOut lowering held v v'))) := by
  have hapart := List.pairwise_map.mp (carried_apart h hkept)
  rw [carriedOut, mapFromList_distinct (List.pairwise_map.mpr hapart), List.map_map]
  rfl

theorem carries_map {k k' v v' : Ty} {key held : Restatement} (hk : Carries lowering k k' key)
    (hv : Carries lowering v v' held) :
    Carries lowering (.map k v) (.map k' v') (Restatement.overParts [key, held] (.map key held)) := by
  obtain ⟨rfl, rfl, hover⟩ | hover := overParts_two key held (.map key held)
  · have hvalue {value : Val R} (h : HasType lowering v value) : HasType lowering v' value := by
      have := hv.typed value h
      rwa [carriedOut_same] at this
    rw [hover]
    constructor
    · intro value htyped
      obtain ⟨entries, rfl, hkept, hvalues⟩ := htyped.map_inv
      rw [carriedOut_same]
      exact HasType.of_map (kept_same hk rfl hkept) fun entry hentry => hvalue (hvalues entry hentry)
    · intro one other hone hother
      obtain ⟨as, rfl, has, hvas⟩ := hone.map_inv
      obtain ⟨bs, rfl, hbs, hvbs⟩ := hother.map_inv
      rw [carriedOut_same, carriedOut_same, Bool.eq_iff_iff,
        equal_map_typed (kept_same hk rfl has) (kept_same hk rfl hbs)
          (fun entry hentry => hvalue (hvas entry hentry))
          (fun entry hentry => hvalue (hvbs entry hentry)),
        equal_map_typed has hbs hvas hvbs]
      have hsame : ∀ x ∈ as, ∀ y ∈ bs,
          SameEntry lowering k' v' (id x) (id y) ↔ SameEntry lowering k v x y := by
        intro x hx y hy
        have hequal := hv.equal x.value y.value (hvas x hx) (hvbs y hy)
        rw [carriedOut_same, carriedOut_same] at hequal
        rw [id, id, SameEntry, SameEntry, sameMember_same hk has hbs hx hy, hequal]
      have := covered_map hsame
      rwa [List.map_id, List.map_id] at this
    · intro _ value htyped
      obtain ⟨entries, rfl, -, hvalues⟩ := htyped.map_inv
      rw [hash_map, hash_map]
      congr 1
      refine List.foldl_ext _ _ _ fun sum entry hentry => ?_
      rw [hv.hash rfl entry.value (hvalues entry hentry)]
  · have hvalues' {entries : List (Entry (Val R) (Val R))}
        (hvalues : ∀ entry ∈ entries, HasType lowering v entry.value) :
        ∀ entry ∈ entries.map (carriedEntry lowering key k k' (carriedOut lowering held v v')),
          HasType lowering v' entry.value := by
      intro entry hentry
      obtain ⟨it, hit, rfl⟩ := List.mem_map.mp hentry
      exact hv.typed it.value (hvalues it hit)
    rw [hover]
    constructor
    · intro value htyped
      obtain ⟨entries, rfl, hkept, hvalues⟩ := htyped.map_inv
      rw [carriedOut_map hk hkept]
      exact HasType.of_map
        (carried_kept hk hkept (carriedOut lowering held v v'))
        (hvalues' hvalues)
    · intro one other hone hother
      obtain ⟨as, rfl, has, hvas⟩ := hone.map_inv
      obtain ⟨bs, rfl, hbs, hvbs⟩ := hother.map_inv
      rw [carriedOut_map hk has, carriedOut_map hk hbs, Bool.eq_iff_iff,
        equal_map_typed (carried_kept hk has (carriedOut lowering held v v'))
          (carried_kept hk hbs (carriedOut lowering held v v'))
          (hvalues' hvas) (hvalues' hvbs),
        equal_map_typed has hbs hvas hvbs]
      refine covered_map fun x hx y hy => ?_
      rw [SameEntry, SameEntry, sameMember_carried hk has hbs (carriedOut lowering held v v') hx hy]
      exact and_congr_right fun _ => iff_of_eq
        (congrArg (· = true) (hv.equal x.value y.value (hvas x hx) (hvbs y hy)))
    · intro hsame
      cases hsame

inductive CarriesEach (lowering : Lowerings R Key) : List Ty → List Ty → List Restatement → Prop
  | nil : CarriesEach lowering [] [] []
  | cons {a b : Ty} {as bs : List Ty} {plan : Restatement} {plans : List Restatement} :
      Carries lowering a b plan → CarriesEach lowering as bs plans →
      CarriesEach lowering (a :: as) (b :: bs) (plan :: plans)

theorem carriesEach_of {as bs : List Ty} {plans : List Restatement} (hlen : as.length = bs.length)
    (hplans : as.length = plans.length)
    (h : ∀ slot ∈ (as.zip bs).zip plans, Carries lowering slot.1.1 slot.1.2 slot.2) :
    CarriesEach lowering as bs plans := by
  induction as generalizing bs plans with
  | nil =>
    rw [List.length_eq_zero_iff.mp hlen.symm, List.length_eq_zero_iff.mp hplans.symm]
    exact .nil
  | cons a as ih =>
    cases bs with
    | nil => cases hlen
    | cons b bs =>
      cases plans with
      | nil => cases hplans
      | cons plan plans =>
        refine .cons (h ((a, b), plan) List.mem_cons_self) (ih (Nat.succ.inj hlen)
          (Nat.succ.inj hplans) fun slot hslot => h slot (List.mem_cons_of_mem _ hslot))

namespace CarriesEach

theorem typed {as bs : List Ty} {plans : List Restatement} (h : CarriesEach lowering as bs plans)
    {values : List (Val R)} (hvalues : HasTypes lowering as values) :
    HasTypes lowering bs (carriedOutEach lowering plans as bs values) := by
  induction h generalizing values with
  | nil =>
    cases hvalues
    rw [carriedOutEach]
    · exact .nil
    · simp
  | cons hone _ ih =>
    cases hvalues with
    | cons hvalue hvalues =>
      rw [carriedOutEach]
      exact .cons (hone.typed _ hvalue) (ih hvalues)

theorem equal {as bs : List Ty} {plans : List Restatement} (h : CarriesEach lowering as bs plans)
    {values others : List (Val R)} (hvalues : HasTypes lowering as values)
    (hothers : HasTypes lowering as others) :
    slotsEqual lowering bs (carriedOutEach lowering plans as bs values)
        (carriedOutEach lowering plans as bs others) = slotsEqual lowering as values others := by
  induction h generalizing values others with
  | nil => rfl
  | cons hone _ ih =>
    cases hvalues with
    | cons hvalue hvalues =>
      cases hothers with
      | cons hother hothers =>
        rw [carriedOutEach, carriedOutEach, slotsEqual_cons, slotsEqual_cons,
          hone.equal _ _ hvalue hother, ih hvalues hothers]

theorem same {as bs : List Ty} {plans : List Restatement} (h : CarriesEach lowering as bs plans)
    (hsame : plans.all Restatement.isSame = true) {values : List (Val R)}
    (hvalues : HasTypes lowering as values) :
    carriedOutEach lowering plans as bs values = values := by
  induction h generalizing values with
  | nil =>
    cases hvalues
    rw [carriedOutEach]
    simp
  | cons hone _ ih =>
    cases hvalues with
    | cons hvalue hvalues =>
      rw [List.all_cons, Bool.and_eq_true] at hsame
      rw [carriedOutEach, of_isSame hsame.1, carriedOut_same, ih hsame.2 hvalues]

theorem hash {as bs : List Ty} {plans : List Restatement} (h : CarriesEach lowering as bs plans)
    (hsame : plans.all Restatement.isSame = true) {values : List (Val R)}
    (hvalues : HasTypes lowering as values) (start : BitVec 64) :
    slotsHash lowering start bs values = slotsHash lowering start as values := by
  induction h generalizing values start with
  | nil => rfl
  | cons hone _ ih =>
    cases hvalues with
    | cons hvalue hvalues =>
      rw [List.all_cons, Bool.and_eq_true] at hsame
      rw [slotsHash_cons, slotsHash_cons, hone.hash hsame.1 _ hvalue, ih hsame.2 hvalues]

end CarriesEach

theorem overParts_or (parts : List Restatement) (made : Restatement) :
    Restatement.overParts parts made = .same ∨ Restatement.overParts parts made = made := by
  rw [Restatement.overParts]
  exact ite_eq_or_eq _ _ _

theorem carriedOut_tuple {as bs : List Ty} {plans : List Restatement}
    (h : CarriesEach lowering as bs plans) {members : List (Val R)}
    (hmembers : HasTypes lowering as members) :
    carriedOut lowering (Restatement.overParts plans (.tuple plans)) (.tuple as) (.tuple bs)
      (.members members) = .members (carriedOutEach lowering plans as bs members) := by
  by_cases hsame : plans.all Restatement.isSame = true
  · rw [Restatement.overParts, if_pos hsame, carriedOut_same, h.same hsame hmembers]
  · rw [Restatement.overParts, if_neg hsame, carriedOut]

theorem carries_tuple {as bs : List Ty} {plans : List Restatement}
    (h : CarriesEach lowering as bs plans) :
    Carries lowering (.tuple as) (.tuple bs) (Restatement.overParts plans (.tuple plans)) := by
  have htyped {members : List (Val R)} (hmembers : HasTypes lowering bs members) :
      HasType lowering (.tuple bs) (.members members) :=
    .members (hasTypes_iff.mp hmembers).1 (hasTypes_iff.mp hmembers).2
  constructor
  · intro value hvalue
    obtain ⟨members, rfl, hmembers⟩ := hvalue.tuple_inv
    rw [carriedOut_tuple h hmembers]
    exact htyped (h.typed hmembers)
  · intro one other hone hother
    obtain ⟨members, rfl, hmembers⟩ := hone.tuple_inv
    obtain ⟨members', rfl, hmembers'⟩ := hother.tuple_inv
    rw [carriedOut_tuple h hmembers, carriedOut_tuple h hmembers', equal_tuple, equal_tuple,
      h.equal hmembers hmembers']
  · intro hsame value hvalue
    obtain ⟨members, rfl, hmembers⟩ := hvalue.tuple_inv
    have hall : plans.all Restatement.isSame = true := by
      by_contra hnot
      rw [Restatement.overParts, if_neg hnot] at hsame
      cases hsame
    have hwide := h.typed hmembers
    rw [h.same hall hmembers] at hwide
    rw [hash_tuple, hash_tuple, (htyped hwide).reached, hvalue.reached, if_neg (by simp),
      if_neg (by simp), h.hash hall hmembers]

theorem hash_fn (takes : List Ty) (answers : Ty) (value : Val R) :
    Hashing.hash lowering (.fn takes answers) value = HASH_START := by
  cases value <;> simp [Hashing.hash, caseOf]

theorem carries_function {takes takes' : List Ty} {answers answers' : Ty} {plan : Restatement}
    (hfits : lowering.declared.fits (.fn takes answers) (.fn takes' answers') = true)
    (hplan : restatement (.fn takes answers) (.fn takes' answers') = .ok plan)
    (hfunction : plan = .same ∨ ∃ plans held, plan = .function plans held) :
    Carries lowering (.fn takes answers) (.fn takes' answers') plan := by
  constructor
  · intro value hvalue
    rcases hfunction with rfl | ⟨plans, held, rfl⟩
    · rw [carriedOut_same]
      exact .function hvalue ⟨hfits, _, hplan, rfl⟩
    · rw [carriedOut]
      exact .wrap hvalue hfits hplan rfl
  · intro one other _ _
    rw [equal_fn, equal_fn]
  · intro _ value _
    rw [hash_fn, hash_fn]

theorem carries_of_widens {narrow wide : Ty} {plan : Restatement}
    (h : Widens lowering.declared narrow wide plan) : Carries lowering narrow wide plan := by
  induction h with
  | self ty => exact carries_self ty
  | cases hcased hcased' hleaves hleaves' hsub =>
    exact carries_cases hcased hcased' hleaves hleaves' hsub
  | noValue wide hnone => exact carries_noValue wide hnone
  | carry p hcased hleaves hmem => exact carries_carry p hcased hleaves hmem
  | uncarry p hcased hleaves hall => exact carries_uncarry p hcased hleaves hall
  | option _ ih => exact carries_option ih
  | list _ ih => exact carries_list ih
  | set _ ih => exact carries_set ih
  | map _ _ ihk ihv => exact carries_map ihk ihv
  | tuple hlen hplans _ ih => exact carries_tuple (carriesEach_of hlen hplans ih)
  | function hfits hplan =>
    exact carries_function hfits hplan ((overParts_or _ _).imp_right fun h => ⟨_, _, h⟩)

/-- What carrying out the plan of a widening keeps. -/
theorem carries {narrow wide : Ty} {plan : Restatement}
    (hfits : lowering.declared.fits narrow wide = true) (h : restatement narrow wide = .ok plan) :
    Carries lowering narrow wide plan := carries_of_widens (widens_of hfits h)

end SoutherNative.Widening
