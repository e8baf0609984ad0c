import SoutherNative.Restating

set_option autoImplicit false

/-!
# Values of a type

Which values are values of a type as the object lays them out: what a value is made of at each type,
the hashes a set and a map keep, and the functions a function type is called through.
-/
namespace SoutherNative.Typing
open Transport HashTrie Values Hashing Equality Restating

variable {R Key : Type} [LinearOrder Key] (lowering : Lowerings R Key)

def Stands (narrow wide : Ty) : Prop :=
  lowering.declared.fits narrow wide = true ∧ ∃ plan, restatement narrow wide = .ok plan ∧ plan.isSame

/-- `value` is a value of `ty`. -/
inductive HasType : Ty → Val R → Prop
  | int (word : BitVec 64) : HasType (.prim .int) (.word word)
  | bool (truth : Bool) : HasType (.prim .bool) (.word (if truth then 1#64 else 0#64))
  | amount (p : Prim) (kept : R) : p ≠ .int → p ≠ .bool → HasType (.prim p) (.amount p kept)
  | tagged {ty : Ty} {leaves : List Case} {which : Case} {slots : List (Val R)} :
      ty.saysItsCase = true → lowering.declared.casesOf ty = some leaves → which ∈ leaves →
      (bodyOf lowering.declared which).length = slots.length →
      (∀ slot ∈ (bodyOf lowering.declared which).zip slots, HasType slot.1 slot.2) →
      HasType ty (.tagged which slots)
  | absent (held : Ty) : HasType (.option held) .absent
  | held {held : Ty} {value : Val R} : HasType held value → HasType (.option held) (.held value)
  | members {types : List Ty} {members : List (Val R)} : types.length = members.length →
      (∀ slot ∈ types.zip members, HasType slot.1 slot.2) → HasType (.tuple types) (.members members)
  | list {element : Ty} {elements : List (Val R)} : (∀ value ∈ elements, HasType element value) →
      HasType (.list element) (.list elements)
  | set {member : Ty} {entries : List (Entry (Val R) Int64)} :
      (∀ entry ∈ entries, entry.hash = hash lowering member entry.key) →
      (∀ entry ∈ entries, HasType member entry.key) →
      entries.Pairwise (fun a b => equal lowering member a.key b.key = false) →
      HasType (.set member) (.set entries)
  | map {key held : Ty} {entries : List (Entry (Val R) (Val R))} :
      (∀ entry ∈ entries, entry.hash = hash lowering key entry.key) →
      (∀ entry ∈ entries, HasType key entry.key) → (∀ entry ∈ entries, HasType held entry.value) →
      entries.Pairwise (fun a b => equal lowering key a.key b.key = false) →
      HasType (.map key held) (.map entries)
  | lifted {site : ℕ} {captures : List (Val R)} :
      (lowering.site site).captures.length = captures.length →
      (∀ slot ∈ (lowering.site site).captures.zip captures, HasType slot.1 slot.2) →
      HasType (.fn (lowering.site site).takes (lowering.site site).answers)
        (.closure (.lifted site) captures)
  | wrap {takes takes' : List Ty} {answers answers' : Ty} {plan : Restatement} {value : Val R} :
      HasType (.fn takes answers) value →
      lowering.declared.fits (.fn takes answers) (.fn takes' answers') = true →
      restatement (.fn takes answers) (.fn takes' answers') = .ok plan → plan.isSame = false →
      HasType (.fn takes' answers') (.closure (.wrap takes answers takes' answers') [value])
  | function {takes takes' : List Ty} {answers answers' : Ty} {value : Val R} :
      HasType (.fn takes answers) value →
      Stands lowering (.fn takes answers) (.fn takes' answers') →
      HasType (.fn takes' answers') value

variable {lowering}

def HasTypes (lowering : Lowerings R Key) (types : List Ty) (values : List (Val R)) : Prop :=
  List.Forall₂ (HasType lowering) types values

theorem hasTypes_iff {types : List Ty} {values : List (Val R)} :
    HasTypes lowering types values ↔ types.length = values.length ∧
      ∀ slot ∈ types.zip values, HasType lowering slot.1 slot.2 := by
  rw [HasTypes, List.forall₂_iff_zip]
  exact and_congr_right fun _ => ⟨fun h slot hslot => h hslot, fun h a b hab => h (a, b) hab⟩

/-- The entries a set or a map of keys of `key` lists. -/
structure Kept {V : Type} (lowering : Lowerings R Key) (key : Ty) (entries : List (Entry (Val R) V)) :
    Prop where
  hash : ∀ entry ∈ entries, entry.hash = Hashing.hash lowering key entry.key
  keys : ∀ entry ∈ entries, HasType lowering key entry.key
  apart : entries.Pairwise (fun a b => equal lowering key a.key b.key = false)

section Inversion

theorem HasType.option_inv {held : Ty} {value : Val R} (h : HasType lowering (.option held) value) :
    value = .absent ∨ ∃ inner, value = .held inner ∧ HasType lowering held inner := by
  cases h with
  | tagged hcased => cases hcased
  | absent => exact .inl rfl
  | held hinner => exact .inr ⟨_, rfl, hinner⟩

theorem HasType.list_inv {element : Ty} {value : Val R}
    (h : HasType lowering (.list element) value) :
    ∃ elements, value = .list elements ∧ ∀ it ∈ elements, HasType lowering element it := by
  cases h with
  | tagged hcased => cases hcased
  | list helements => exact ⟨_, rfl, helements⟩

theorem HasType.tuple_inv {types : List Ty} {value : Val R}
    (h : HasType lowering (.tuple types) value) :
    ∃ members, value = .members members ∧ HasTypes lowering types members := by
  cases h with
  | tagged hcased => cases hcased
  | members hlen hslots => exact ⟨_, rfl, hasTypes_iff.mpr ⟨hlen, hslots⟩⟩

theorem HasType.set_inv {member : Ty} {value : Val R} (h : HasType lowering (.set member) value) :
    ∃ entries, value = .set entries ∧ Kept lowering member entries := by
  cases h with
  | tagged hcased => cases hcased
  | set hhash hkeys hpair => exact ⟨_, rfl, hhash, hkeys, hpair⟩

theorem HasType.map_inv {key held : Ty} {value : Val R}
    (h : HasType lowering (.map key held) value) :
    ∃ entries, value = .map entries ∧ Kept lowering key entries ∧
      ∀ entry ∈ entries, HasType lowering held entry.value := by
  cases h with
  | tagged hcased => cases hcased
  | map hhash hkeys hvalues hpair => exact ⟨_, rfl, ⟨hhash, hkeys, hpair⟩, hvalues⟩

/-- A value of a type that says its case carries the token of one of its cases, and what a value of
    that case holds. -/
theorem HasType.tagged_inv {ty : Ty} {value : Val R} (hcased : ty.saysItsCase = true)
    (h : HasType lowering ty value) :
    ∃ leaves which slots, value = .tagged which slots ∧
      lowering.declared.casesOf ty = some leaves ∧ which ∈ leaves ∧
      HasTypes lowering (bodyOf lowering.declared which) slots := by
  cases h with
  | tagged _ hleaves hwhich hlen hslots =>
    exact ⟨_, _, _, rfl, hleaves, hwhich, hasTypes_iff.mpr ⟨hlen, hslots⟩⟩
  | _ => cases hcased

theorem HasType.hasNoValue {ty : Ty} {value : Val R} (h : HasType lowering ty value) :
    ty.hasNoValue = false := by
  cases h with
  | @tagged ty _ _ _ hcased => cases ty <;> first | rfl | cases hcased
  | _ => rfl

end Inversion

theorem forall_types_of_zip {p : Ty → Prop} {types : List Ty} {values : List (Val R)}
    (hlen : types.length = values.length) (h : ∀ slot ∈ types.zip values, p slot.1) :
    ∀ ty ∈ types, p ty := by
  intro ty hty
  rw [← List.map_fst_zip hlen.le] at hty
  obtain ⟨slot, hslot, rfl⟩ := List.mem_map.mp hty
  exact h slot hslot

theorem ofEach_reached {types : List Ty} (h : ∀ ty ∈ types, unreached ty = false)
    {plans : List Plan} (hplans : Plan.ofEach types = .ok plans) :
    plans.any Plan.isUnreached = false := by
  induction types generalizing plans with
  | nil =>
    simp only [Plan.ofEach, Except.ok.injEq] at hplans
    rw [← hplans]
    rfl
  | cons ty types ih =>
    simp only [Plan.ofEach] at hplans
    cases hty : Plan.of ty with
    | error text =>
      rw [hty] at hplans
      cases hplans
    | ok plan =>
      cases hrest : Plan.ofEach types with
      | error text =>
        rw [hty, hrest] at hplans
        cases hplans
      | ok rest =>
        rw [hty, hrest] at hplans
        cases hplans
        have hhead := h ty List.mem_cons_self
        rw [unreached, hty] at hhead
        have hhead : plan.isUnreached = false := hhead
        rw [List.any_cons, hhead, ih (fun it hit => h it (List.mem_cons_of_mem _ hit)) hrest]
        rfl

theorem unreached_container {ty held : Ty} {made : Plan → Plan}
    (hplan : Plan.of ty = (Plan.of held).map made) (hmade : ∀ plan, (made plan).isUnreached = false) :
    unreached ty = false := by
  rw [unreached, hplan]
  cases Plan.of held with
  | error text => rfl
  | ok plan => exact hmade plan

theorem unreached_map (key held : Ty) : unreached (.map key held) = false := by
  simp only [unreached, Plan.of]
  cases Plan.of key with
  | error text => rfl
  | ok plan =>
    cases Plan.of held <;> rfl

/-- A type a value is of is not one no value of which is made. -/
theorem HasType.reached {ty : Ty} {value : Val R} (h : HasType lowering ty value) :
    unreached ty = false := by
  induction h with
  | int | bool => rfl
  | amount p kept hint hbool => cases p <;> rfl
  | @tagged ty leaves which slots hcased =>
    cases ty with
    | ref named => cases named <;> rfl
    | union members => rfl
    | _ => cases hcased
  | @members types members hlen hslots ih =>
    have htypes := forall_types_of_zip (p := fun ty => unreached ty = false) hlen ih
    simp only [unreached, Plan.of]
    cases hplans : Plan.ofEach types with
    | error text => rfl
    | ok plans => simp [Except.map, ofEach_reached htypes hplans, Plan.isUnreached]
  | absent | held | list | set => exact unreached_container rfl (fun _ => rfl)
  | map => exact unreached_map _ _
  | lifted | wrap | function => rfl

end SoutherNative.Typing
