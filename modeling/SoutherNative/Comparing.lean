import SoutherNative.Widening

set_option autoImplicit false

/-!
# Which types compare

Where `comparable` answers that two values of a type compare, every value of it is equal to itself.
-/
namespace SoutherNative.Comparing
open Transport HashTrie Values Hashing Equality Typing EqualHash Matching Widening

def CaseCompares (walked : Ty → Prop) : Case → Prop
  | .declared key => walked (.ref (.declared key))
  | .primitive _ | .language _ => True

/-- What `comparable` asks of one type, where `walked` answers for the types it is made of. -/
def Compares (declared : Declared) (walked : Ty → Prop) : Ty → Prop
  | .prim _ | .ref (.language _) => True
  | .fn _ _ | .var _ | .nothing | .never | .ref (.primitive _) => False
  | .option held => held.hasNoValue = true ∨ walked held
  | .list element => element.hasNoValue = true ∨ walked element
  | .set member => member.hasNoValue = true ∨ walked member
  | .map key value =>
    (key.hasNoValue || value.hasNoValue) = true ∨ walked key ∧ walked value
  | .tuple members => ∀ member ∈ members, walked member
  | .union members => ∀ case ∈ members.cases, CaseCompares walked case
  | .ref (.declared key) =>
    match declared.laid key with
    | .product fields => ∀ field ∈ fields, walked field.ty
    | .newtype field => walked field.ty
    | .unit => True
    | .sum cases => ∀ case ∈ cases.cases, CaseCompares walked case

/-- Two values of the type compare. A declaration met again is answered for where it was first
    reached, so what is asked is some types, it among them, each made of what is among them. -/
def Comparable (declared : Declared) (ty : Ty) : Prop :=
  ∃ walked : Ty → Prop, walked ty ∧ ∀ ty, walked ty → Compares declared walked ty

variable {R Key : Type} [LinearOrder Key] {lowering : Lowerings R Key} {walked : Ty → Prop}

section Walked

variable {declared : Declared} (hclosed : ∀ ty, walked ty → Compares declared walked ty)

include hclosed

theorem walked_fields {key : String} (h : walked (.ref (.declared key))) :
    ∀ held ∈ fieldTypes (declared.laid key), walked held := by
  have hcompares := hclosed _ h
  intro held hheld
  cases hlaid : declared.laid key with
  | product fields =>
    simp only [Compares, hlaid] at hcompares
    rw [hlaid, fieldTypes] at hheld
    obtain ⟨field, hfield, rfl⟩ := List.mem_map.mp hheld
    exact hcompares field hfield
  | newtype field =>
    simp only [Compares, hlaid] at hcompares
    rw [hlaid, fieldTypes] at hheld
    rwa [List.mem_singleton.mp hheld]
  | unit | sum cases =>
    rw [hlaid] at hheld
    cases hheld

theorem walked_case {leaf : Case} (h : CaseCompares walked leaf) :
    ∀ held ∈ bodyOf declared leaf, walked held ∨ ∃ p, held = .prim p := by
  intro held hheld
  cases leaf with
  | declared key => exact .inl (walked_fields hclosed h held hheld)
  | primitive p => exact .inr ⟨p, List.mem_singleton.mp hheld⟩
  | language case => cases hheld

theorem compares_reached {case leaf : Case} (h : CaseCompares walked case)
    (hleaf : leaf ∈ declared.reached case) : CaseCompares walked leaf := by
  cases case with
  | declared key =>
    have hcompares := hclosed _ h
    simp only [Declared.reached] at hleaf
    split at hleaf
    · next cases hlaid =>
      simp only [Compares, hlaid] at hcompares
      exact hcompares leaf hleaf
    · rwa [List.mem_singleton.mp hleaf]
  | primitive p =>
    rw [List.mem_singleton.mp hleaf]
    trivial
  | language case =>
    rw [List.mem_singleton.mp hleaf]
    trivial

theorem compares_leaf {ty : Ty} (hty : walked ty) (hcased : ty.saysItsCase = true)
    {leaves : List Case} (hleaves : declared.casesOf ty = some leaves) {which : Case}
    (hwhich : which ∈ leaves) : CaseCompares walked which := by
  cases ty with
  | ref named =>
    rw [Declared.casesOf, Option.some.injEq] at hleaves
    rw [← hleaves, Declared.mem_leavesOf] at hwhich
    obtain ⟨case, hcase, hreached⟩ := hwhich
    rw [List.mem_singleton.mp hcase] at hreached
    cases named with
    | declared key =>
      have hcase : CaseCompares walked (.declared key) := hty
      exact compares_reached hclosed hcase hreached
    | primitive p => cases hcased
    | language case =>
      rw [List.mem_singleton.mp hreached]
      trivial
  | union members =>
    rw [Declared.casesOf, Option.some.injEq] at hleaves
    rw [← hleaves, Declared.mem_leavesOf] at hwhich
    obtain ⟨case, hcase, hreached⟩ := hwhich
    exact compares_reached hclosed (hclosed _ hty case hcase) hreached
  | _ => cases hcased

end Walked

theorem equal_prim_refl {p : Prim} {value : Val R} (h : HasType lowering (.prim p) value) :
    equal lowering (.prim p) value value = true := by
  cases h with
  | int word => rw [equal_int, decide_eq_true_eq]
  | bool truth => rw [equal_bool, decide_eq_true_eq]
  | amount p kept hint hbool =>
    rw [equal_amount lowering hint hbool, decide_eq_true_eq, Primitives.compare_eq_zero]
  | tagged hcased => cases hcased

theorem slotsEqual_refl {types : List Ty} {slots : List (Val R)}
    (htyped : HasTypes lowering types slots)
    (h : ∀ ty ∈ types, ∀ slot ∈ slots, HasType lowering ty slot →
      equal lowering ty slot slot = true) : slotsEqual lowering types slots slots = true := by
  induction htyped with
  | nil => rfl
  | cons hslot _ ih =>
    rw [slotsEqual_cons, Bool.and_eq_true]
    exact ⟨h _ List.mem_cons_self _ List.mem_cons_self hslot, ih fun ty hty slot hslot =>
      h ty (List.mem_cons_of_mem _ hty) slot (List.mem_cons_of_mem _ hslot)⟩

theorem refl_of_walked (hclosed : ∀ ty, walked ty → Compares lowering.declared walked ty) {ty : Ty}
    {value : Val R} (hty : walked ty) (h : HasType lowering ty value) :
    equal lowering ty value value = true := by
  induction hn : sizeOf value using Nat.strong_induction_on generalizing ty value with
  | _ n ih =>
    subst hn
    have hcompares := hclosed ty hty
    by_cases hcased : ty.saysItsCase = true
    · obtain ⟨leaves, which, slots, rfl, hleaves, hwhich, hslots⟩ := h.tagged_inv hcased
      rw [equal_tagged_iff hcased hleaves hwhich hwhich]
      refine ⟨rfl, slotsEqual_refl hslots fun held hheld slot hslot htyped => ?_⟩
      rcases walked_case hclosed (compares_leaf hclosed hty hcased hleaves hwhich) held hheld with
        hwalked | ⟨p, rfl⟩
      · have := List.sizeOf_lt_of_mem hslot
        exact ih _ (by simp only [Val.tagged.sizeOf_spec]; omega) hwalked htyped rfl
      · exact equal_prim_refl htyped
    · cases ty with
      | prim p => exact equal_prim_refl h
      | option held =>
        obtain rfl | ⟨inner, rfl, hinner⟩ := h.option_inv
        · exact equal_absent lowering held
        · have hwalked := hcompares.resolve_left (by rw [hinner.hasNoValue]; simp)
          rw [equal_held, ih _ (by simp only [Val.held.sizeOf_spec]; omega) hwalked hinner rfl,
            Bool.or_true]
      | list element =>
        obtain ⟨elements, rfl, helements⟩ := h.list_inv
        rw [equal_list_typed helements helements, decide_eq_true rfl, Bool.true_and, List.all_eq_true]
        intro pair hpair
        have hmem := (List.of_mem_zip hpair).1
        have hsame : pair.2 = pair.1 := by
          rw [List.zip_eq_zipWith, List.zipWith_self] at hpair
          obtain ⟨element, -, rfl⟩ := List.mem_map.mp hpair
          rfl
        have hwalked := hcompares.resolve_left (by rw [(helements _ hmem).hasNoValue]; simp)
        have := List.sizeOf_lt_of_mem hmem
        rw [hsame]
        exact ih _ (by simp only [Val.list.sizeOf_spec]; omega) hwalked (helements _ hmem) rfl
      | set member =>
        obtain ⟨entries, rfl, hkept⟩ := h.set_inv
        rw [equal_set_typed hkept hkept]
        refine ⟨rfl, fun entry hentry => ⟨entry, hentry, rfl, ?_⟩⟩
        have htyped := hkept.keys entry hentry
        have hwalked := hcompares.resolve_left (by rw [htyped.hasNoValue]; simp)
        have := sizeOf_key hentry
        exact ih _ (by simp only [Val.set.sizeOf_spec]; omega) hwalked htyped rfl
      | map key held =>
        obtain ⟨entries, rfl, hkept, hvalues⟩ := h.map_inv
        rw [equal_map_typed hkept hkept hvalues hvalues]
        refine ⟨rfl, fun entry hentry => ⟨entry, hentry, ⟨rfl, ?_⟩, ?_⟩⟩ <;>
          have hwalked := hcompares.resolve_left
            (by rw [(hkept.keys entry hentry).hasNoValue, (hvalues entry hentry).hasNoValue]; simp)
        · have := sizeOf_key hentry
          exact ih _ (by simp only [Val.map.sizeOf_spec]; omega) hwalked.1
            (hkept.keys entry hentry) rfl
        · have := sizeOf_value hentry
          exact ih _ (by simp only [Val.map.sizeOf_spec]; omega) hwalked.2
            (hvalues entry hentry) rfl
      | tuple types =>
        obtain ⟨members, rfl, hmembers⟩ := h.tuple_inv
        rw [equal_tuple]
        refine slotsEqual_refl hmembers fun ty hty slot hslot htyped => ?_
        have := List.sizeOf_lt_of_mem hslot
        exact ih _ (by simp only [Val.members.sizeOf_spec]; omega) (hcompares ty hty) htyped rfl
      | ref named =>
        cases named with
        | primitive p => exact hcompares.elim
        | declared | language => exact absurd rfl hcased
      | union => exact absurd rfl hcased
      | fn | var | nothing | never => exact hcompares.elim

/-- A value of a type that compares is equal to itself. -/
theorem equal_refl {ty : Ty} (hcomparable : Comparable lowering.declared ty) {value : Val R}
    (h : HasType lowering ty value) : equal lowering ty value value = true := by
  obtain ⟨walked, hty, hclosed⟩ := hcomparable
  exact refl_of_walked hclosed hty h

end SoutherNative.Comparing
