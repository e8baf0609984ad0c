import SoutherNative.Comparing
import SoutherNative.ValueCollection

set_option autoImplicit false

/-!
# Values held alike hash alike

Two types a value of the one of which stands as a value of the other where it is, and what is kept
of a set or a map of the one read as of the other: the plans of their hashers agree, and where the
other is the wider type each value hashes as it did.
-/
namespace SoutherNative.HeldAlike
open Transport HashTrie Values Hashing Equality Restating Typing EqualHash Widening Comparing
open ValueCollection Collection

inductive Alike : Ty → Ty → Prop
  | self (ty : Ty) : Alike ty ty
  | cases {narrow wide : Ty} : narrow.saysItsCase = true → wide.saysItsCase = true →
      Alike narrow wide
  | noValue {narrow : Ty} (wide : Ty) : narrow.hasNoValue = true → Alike narrow wide
  | option {a b : Ty} : Alike a b → Alike (.option a) (.option b)
  | list {a b : Ty} : Alike a b → Alike (.list a) (.list b)
  | set {a b : Ty} : Alike a b → Alike (.set a) (.set b)
  | map {k k' v v' : Ty} : Alike k k' → Alike v v' → Alike (.map k v) (.map k' v')
  | tuple {as bs : List Ty} : as.length = bs.length →
      (∀ pair ∈ as.zip bs, Alike pair.1 pair.2) → Alike (.tuple as) (.tuple bs)
  | function (takes takes' : List Ty) (answers answers' : Ty) :
      Alike (.fn takes answers) (.fn takes' answers')

theorem all_same {parts : List Restatement} {made : Restatement} (hmade : made.isSame = false)
    (h : Restatement.overParts parts made = .same) : ∀ part ∈ parts, part = .same := by
  rw [Restatement.overParts] at h
  split_ifs at h with hall
  · intro part hpart
    exact of_isSame (List.all_eq_true.mp hall part hpart)
  · rw [h] at hmade
    cases hmade

theorem alike_of {narrow wide : Ty} (h : restatement narrow wide = .ok .same) :
    Alike narrow wide := by
  induction hn : sizeOf narrow + sizeOf wide using Nat.strong_induction_on
    generalizing narrow wide with
  | _ n ih =>
    subst hn
    unfold restatement at h
    split_ifs at h with hsame
    · rw [Bool.or_eq_true, decide_eq_true_eq, Bool.and_eq_true] at hsame
      rcases hsame with rfl | hcased
      · exact .self narrow
      · exact .cases hcased.1 hcased.2
    · split at h
      · exact .noValue wide rfl
      · exact .noValue wide rfl
      · obtain ⟨part, hpart, hover⟩ := of_map h
        obtain rfl := all_same rfl hover part List.mem_cons_self
        exact .option (ih _ (by simp only [Ty.option.sizeOf_spec]; omega) hpart rfl)
      · obtain ⟨part, hpart, hover⟩ := of_map h
        obtain rfl := all_same rfl hover part List.mem_cons_self
        exact .list (ih _ (by simp only [Ty.list.sizeOf_spec]; omega) hpart rfl)
      · obtain ⟨part, hpart, hover⟩ := of_map h
        obtain rfl := all_same rfl hover part List.mem_cons_self
        exact .set (ih _ (by simp only [Ty.set.sizeOf_spec]; omega) hpart rfl)
      · obtain ⟨key, hkey, h⟩ := of_bind h
        obtain ⟨held, hheld, hover⟩ := of_map h
        have hparts := all_same rfl hover
        obtain rfl := hparts key List.mem_cons_self
        obtain rfl := hparts held (List.mem_cons_of_mem _ List.mem_cons_self)
        exact .map (ih _ (by simp only [Ty.map.sizeOf_spec]; omega) hkey rfl)
          (ih _ (by simp only [Ty.map.sizeOf_spec]; omega) hheld rfl)
      · next as bs =>
        split_ifs at h with hlen
        rw [not_not] at hlen
        obtain ⟨plans, hplans, hover⟩ := of_map h
        have hparts := all_same rfl hover
        obtain ⟨hlength, hslots⟩ := of_each hlen hplans
        refine .tuple hlen fun pair hpair => ?_
        obtain ⟨at_, hat, hget⟩ := List.getElem_of_mem hpair
        have hplan : at_ < plans.length := by
          rw [List.length_zip] at hat
          omega
        have hslot : (pair, plans[at_]) ∈ (as.zip bs).zip plans := by
          rw [List.mem_iff_getElem]
          refine ⟨at_, by rw [List.length_zip]; omega, ?_⟩
          rw [List.getElem_zip, hget]
        have hsize := Declared.sizeOf_zip hpair
        have hone := hslots _ hslot
        rw [hparts _ (List.getElem_mem hplan)] at hone
        exact ih _ (by simp only [Ty.tuple.sizeOf_spec]; omega) hone rfl
      · exact .function _ _ _ _
      · unfold restatementApart at h
        split at h
        · split_ifs at h
          · cases h
          · split at h <;> cases h
        · cases h
        · split_ifs at h
          cases h
        · cases h
        · cases h

mutual

theorem agrees_self (plan : Plan) : plan.agrees plan = true := by
  cases plan with
  | word | asItsCase | unreached => rfl
  | runtime p => simp [Plan.agrees]
  | option held | list held | set held => simpa [Plan.agrees] using agrees_self held
  | tuple members => simpa [Plan.agrees] using agreeEach_self members
  | map key value => simp [Plan.agrees, agrees_self key, agrees_self value]

theorem agreeEach_self (plans : List Plan) : Plan.agreeEach plans plans = true := by
  cases plans with
  | nil => rfl
  | cons plan plans => simp [Plan.agreeEach, agrees_self plan, agreeEach_self plans]

end

def Agreed (narrow wide : Ty) : Prop :=
  ∀ plan plan', Plan.of narrow = .ok plan → Plan.of wide = .ok plan' →
    plan.agrees plan' = true ∧ (plan'.isUnreached = true → plan.isUnreached = true)

theorem agreed_each {as bs : List Ty} (hlen : as.length = bs.length)
    (h : ∀ pair ∈ as.zip bs, Agreed pair.1 pair.2) {plans plans' : List Plan}
    (hplans : Plan.ofEach as = .ok plans) (hplans' : Plan.ofEach bs = .ok plans') :
    Plan.agreeEach plans plans' = true ∧
      (plans'.any Plan.isUnreached = true → plans.any Plan.isUnreached = true) := by
  induction as generalizing bs plans plans' with
  | nil =>
    obtain rfl := List.length_eq_zero_iff.mp hlen.symm
    cases hplans
    cases hplans'
    exact ⟨rfl, id⟩
  | cons a as ih =>
    cases bs with
    | nil => cases hlen
    | cons b bs =>
      rw [Plan.ofEach] at hplans hplans'
      obtain ⟨plan, hplan, hplans⟩ := of_bind hplans
      obtain ⟨rest, hrest, rfl⟩ := of_map hplans
      obtain ⟨plan', hplan', hplans'⟩ := of_bind hplans'
      obtain ⟨rest', hrest', rfl⟩ := of_map hplans'
      have hone := h (a, b) List.mem_cons_self plan plan' hplan hplan'
      have hrest := ih (Nat.succ.inj hlen) (fun pair hpair => h pair (List.mem_cons_of_mem _ hpair))
        hrest hrest'
      rw [Plan.agreeEach, hone.1, hrest.1, List.any_cons, List.any_cons, Bool.or_eq_true,
        Bool.or_eq_true]
      exact ⟨rfl, Or.imp hone.2 hrest.2⟩

theorem agreed_of {narrow wide : Ty} (h : Alike narrow wide) : Agreed narrow wide := by
  induction h with
  | self ty =>
    intro plan plan' hplan hplan'
    rw [hplan, Except.ok.injEq] at hplan'
    rw [← hplan']
    exact ⟨agrees_self plan, id⟩
  | @cases narrow wide hcased hcased' =>
    have hplan {ty : Ty} (hcased : ty.saysItsCase = true) : Plan.of ty = .ok .asItsCase := by
      cases ty with
      | ref named => cases named <;> first | rfl | cases hcased
      | union members => rfl
      | _ => cases hcased
    intro plan plan' hnarrow hwide
    rw [hplan hcased, Except.ok.injEq] at hnarrow
    rw [hplan hcased', Except.ok.injEq] at hwide
    rw [← hnarrow, ← hwide]
    exact ⟨rfl, id⟩
  | @noValue narrow wide hnone =>
    intro plan plan' hnarrow _
    have hplan : Plan.of narrow = .ok .unreached := by
      cases narrow <;> first | rfl | cases hnone
    rw [hplan, Except.ok.injEq] at hnarrow
    rw [← hnarrow]
    exact ⟨by rw [Plan.agrees], fun _ => rfl⟩
  | option _ ih | list _ ih | set _ ih =>
    intro plan plan' hnarrow hwide
    rw [Plan.of] at hnarrow hwide
    obtain ⟨held, hheld, rfl⟩ := of_map hnarrow
    obtain ⟨held', hheld', rfl⟩ := of_map hwide
    exact ⟨by rw [Plan.agrees, (ih held held' hheld hheld').1], fun h => by cases h⟩
  | map _ _ ihk ihv =>
    intro plan plan' hnarrow hwide
    rw [Plan.of] at hnarrow hwide
    obtain ⟨key, hkey, hnarrow⟩ := of_bind hnarrow
    obtain ⟨value, hvalue, rfl⟩ := of_map hnarrow
    obtain ⟨key', hkey', hwide⟩ := of_bind hwide
    obtain ⟨value', hvalue', rfl⟩ := of_map hwide
    refine ⟨?_, fun h => by cases h⟩
    rw [Plan.agrees, (ihk key key' hkey hkey').1, (ihv value value' hvalue hvalue').1]
    rfl
  | tuple hlen _ ih =>
    intro plan plan' hnarrow hwide
    rw [Plan.of] at hnarrow hwide
    obtain ⟨plans, hplans, rfl⟩ := of_map hnarrow
    obtain ⟨plans', hplans', rfl⟩ := of_map hwide
    have heach := agreed_each hlen ih hplans hplans'
    by_cases hnone : plans.any Plan.isUnreached = true
    · rw [if_pos hnone]
      exact ⟨by rw [Plan.agrees], fun _ => rfl⟩
    · have hnone' : ¬ plans'.any Plan.isUnreached = true := fun h => hnone (heach.2 h)
      rw [if_neg hnone, if_neg hnone']
      exact ⟨by rw [Plan.agrees, heach.1], fun h => by cases h⟩
  | function =>
    intro plan plan' hnarrow _
    cases hnarrow

theorem agrees_of_same {narrow wide : Ty} {plan plan' : Plan}
    (h : restatement narrow wide = .ok .same) (hplan : Plan.of narrow = .ok plan)
    (hplan' : Plan.of wide = .ok plan') : plan.agrees plan' = true :=
  (agreed_of (alike_of h) plan plan' hplan hplan').1

section Kept

variable {R Key V : Type} [LinearOrder Key] {lowering : Lowerings R Key}

def findAs (wide : Ty) {narrow : Ty} (trie : Trie (Of lowering narrow) V)
    (key : Of lowering narrow) : Option (Entry (Of lowering narrow) V) :=
  trie.find (fun a b => equal lowering wide a.1 b.1) (Hashing.hash lowering wide key.1) key

theorem unrestated {narrow wide : Ty} (h : Carries lowering narrow wide .same)
    {value : Val R} (hvalue : HasType lowering narrow value) :
    HasType lowering wide value ∧
      Hashing.hash lowering wide value = Hashing.hash lowering narrow value := by
  have htyped := h.typed value hvalue
  rw [carriedOut_same] at htyped
  exact ⟨htyped, h.hash rfl value hvalue⟩

theorem equal_unrestated {narrow wide : Ty} (h : Carries lowering narrow wide .same)
    (a b : Of lowering narrow) :
    equal lowering wide a.1 b.1 = keyEqual lowering narrow a b := by
  have hequal := h.equal a.1 b.1 a.2 b.2
  rwa [carriedOut_same, carriedOut_same] at hequal

theorem findAs_eq {narrow wide : Ty} (h : Carries lowering narrow wide .same)
    (trie : Trie (Of lowering narrow) V) (key : Of lowering narrow) :
    findAs wide trie key = trie.find (keyEqual lowering narrow) (keyHash lowering narrow key) key := by
  have hequal : (fun a b : Of lowering narrow => equal lowering wide a.1 b.1) =
      keyEqual lowering narrow := funext fun a => funext fun b => equal_unrestated h a b
  rw [findAs, hequal, (unrestated h key.2).2]
  rfl

theorem find_held {ty : Ty} (hcomparable : Comparable lowering.declared ty)
    {trie : Trie (Of lowering ty) V} (hmade : Made trie) {entry : Entry (Of lowering ty) V}
    (hentry : entry ∈ trie.entries) :
    trie.find (keyEqual lowering ty) (keyHash lowering ty entry.key) entry.key = some entry := by
  have hself : keyEqual lowering ty entry.key entry.key = true :=
    equal_refl hcomparable entry.key.2
  rw [hmade.find_eq rfl]
  cases hfind : trie.entries.find? (fun there =>
      same (keyEqual lowering ty) there (keyHash lowering ty entry.key) entry.key) with
  | none =>
    have hnot := List.find?_eq_none.mp hfind entry hentry
    simp [same, hself, hmade.entry_hash entry hentry] at hnot
  | some there =>
    have hsame := List.find?_some hfind
    rw [same, Bool.and_eq_true] at hsame
    rw [hmade.unique (List.mem_of_find?_eq_some hfind) hentry hsame.2 hself]

theorem keyEqual_equivalence {ty : Ty} (hcomparable : Comparable lowering.declared ty) :
    Equivalence (fun a b : Of lowering ty => keyEqual lowering ty a b = true) where
  refl a := equal_refl hcomparable a.2
  symm h := equal_symm (Subtype.property _) (Subtype.property _) h
  trans h h' := equal_trans (Subtype.property _) (Subtype.property _) (Subtype.property _) h h'

/-- The hashers of two types held alike have plans that agree. Where the checker lets a value of the
    one stand as a value of the other the value hashes as it did, and a set or a map kept over the
    one and read as kept over the other finds what it found, each key it holds among that. -/
theorem held_alike_hashes_alike (lowering : Lowerings R Key) {narrow wide : Ty} {plan plan' : Plan}
    (hsame : restatement narrow wide = .ok .same) (hplan : Plan.of narrow = .ok plan)
    (hplan' : Plan.of wide = .ok plan') :
    plan.agrees plan' = true ∧ (lowering.declared.fits narrow wide = true →
      (∀ value, HasType lowering narrow value → HasType lowering wide value ∧
        Hashing.hash lowering wide value = Hashing.hash lowering narrow value) ∧
      ∀ {V : Type} (trie : Trie (Of lowering narrow) V), Made trie →
        (∀ key, findAs wide trie key =
          trie.find (keyEqual lowering narrow) (keyHash lowering narrow key) key) ∧
        (Comparable lowering.declared narrow → ∀ entry ∈ trie.entries,
          findAs wide trie entry.key = some entry)) := by
  refine ⟨agrees_of_same hsame hplan hplan', fun hfits => ?_⟩
  have hcarries : Carries lowering narrow wide .same := carries hfits hsame
  refine ⟨fun value => unrestated hcarries, fun trie hmade => ⟨findAs_eq hcarries trie, ?_⟩⟩
  intro hcomparable entry hentry
  rw [findAs_eq hcarries trie]
  exact find_held hcomparable hmade hentry

end Kept

section Units

def circle : Ty := .ref (.declared "A")

def square : Ty := .ref (.declared "B")

def figure : Ty := .union ⟨[.declared "A", .declared "B"], by simp⟩

theorem leavesOf_units (members : List Case) (leaf : Case) :
    leaf ∈ units.leavesOf members ↔ leaf ∈ members := by
  have hreached : ∀ member : Case, units.reached member = [member] := by
    intro member
    cases member <;> rfl
  simp only [Declared.mem_leavesOf, hreached, List.mem_singleton, exists_eq_right']

theorem hasType_circle : HasType (Lowerings.plain units) circle (.tagged (.declared "A") []) :=
  .tagged rfl rfl ((leavesOf_units _ _).mpr List.mem_cons_self) rfl fun slot hslot => by cases hslot

/-- Where neither is the other's wider type the one value hashes by a token of each. -/
theorem circle_read_as_square : restatement circle square = .ok .same ∧
    Plan.of circle = .ok .asItsCase ∧ Plan.of square = .ok .asItsCase ∧
    HasType (Lowerings.plain units) circle (.tagged (.declared "A") []) ∧
    Hashing.hash (Lowerings.plain units) circle (.tagged (.declared "A") []) ≠
      Hashing.hash (Lowerings.plain units) square (.tagged (.declared "A") []) := by
  refine ⟨by simp [restatement, circle, square, Ty.saysItsCase], rfl, rfl, hasType_circle, ?_⟩
  have hcircle : caseOf (Lowerings.plain units) circle (.declared "A") = some (.declared "A") := rfl
  have hsquare : caseOf (Lowerings.plain units) square (.declared "A") = some (.declared "B") := rfl
  rw [hash_tagged _ [] hcircle, hash_tagged _ [] hsquare]
  unfold slotsHash combine mix
  decide +kernel

theorem circle_fits_figure : units.fits circle figure = true := by
  simp [Declared.fits, circle, figure, Declared.casesOf, leavesOf_units]

theorem circle_held_as_figure : restatement circle figure = .ok .same := by
  simp [restatement, circle, figure, Ty.saysItsCase]

theorem circle_comparable : Comparable units circle := by
  refine ⟨fun ty => ty = circle, rfl, fun ty hty => ?_⟩
  rw [hty]
  trivial

def theCircle : Of (Lowerings.plain units) circle := ⟨.tagged (.declared "A") [], hasType_circle⟩

def circleEntry : Entry (Of (Lowerings.plain units) circle) Int64 :=
  ⟨keyHash _ _ theCircle, theCircle, 0⟩

def circles : Trie (Of (Lowerings.plain units) circle) Int64 :=
  EMPTY.with (keyEqual _ _) circleEntry .keep

theorem refines_circles :
    Refines (keyHash (Lowerings.plain units) circle) (keyEqual _ _) circles [(theCircle, 0)] :=
  refines_empty.with (keyEqual_equivalence circle_comparable) hash_of_keyEqual .keep theCircle 0
    (by simp)

theorem circles_entries : circles.entries = [circleEntry] := by
  have hmade : Made circles := ⟨_, refines_circles⟩
  obtain ⟨⟨hash, key, value⟩, hentries, hentry⟩ :=
    List.map_eq_singleton_iff.mp (List.perm_singleton.mp refines_circles.perm)
  cases hentry
  have hhash : hash = keyHash _ _ theCircle :=
    hmade.entry_hash _ (hentries ▸ List.mem_singleton_self _)
  rw [hentries, hhash]
  rfl

/-- A circle kept, and a set of it read as one of figures. -/
theorem held_alike_hashes_alike_circle :
    Hashing.hash (Lowerings.plain units) figure (.tagged (.declared "A") []) =
        Hashing.hash (Lowerings.plain units) circle (.tagged (.declared "A") []) ∧
      findAs figure circles theCircle = some circleEntry := by
  have halike := (held_alike_hashes_alike (Lowerings.plain units) circle_held_as_figure rfl rfl).2
    circle_fits_figure
  refine ⟨(halike.1 _ hasType_circle).2, ?_⟩
  exact (halike.2 circles ⟨_, refines_circles⟩).2 circle_comparable circleEntry
    (by rw [circles_entries, List.mem_singleton])

end Units

end SoutherNative.HeldAlike
