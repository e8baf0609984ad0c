import SoutherNative.Typing
import SoutherNative.Matching

set_option autoImplicit false

/-!
# Two equal values hash alike

The comparator and the hasher of a type, over any two values of it. Equality is symmetric and
transitive at every type it is asked at, which is what lets two sets that hold equal members be
matched member by member, and so hash alike whatever order their tries list.
-/
namespace SoutherNative.EqualHash
open Transport HashTrie Values Hashing Equality Typing Matching

variable {R Key : Type} [LinearOrder Key] (lowering : Lowerings R Key)

structure Lawful (n : ℕ) : Prop where
  symm : ∀ (ty : Ty) (a b : Val R), sizeOf a < n → sizeOf b < n → HasType lowering ty a →
    HasType lowering ty b → equal lowering ty a b = true → equal lowering ty b a = true
  trans : ∀ (ty : Ty) (a b c : Val R), sizeOf a < n → sizeOf b < n → sizeOf c < n →
    HasType lowering ty a → HasType lowering ty b → HasType lowering ty c →
    equal lowering ty a b = true → equal lowering ty b c = true → equal lowering ty a c = true
  hash : ∀ (ty : Ty) (a b : Val R), sizeOf a < n → sizeOf b < n → HasType lowering ty a →
    HasType lowering ty b → equal lowering ty a b = true → hash lowering ty a = hash lowering ty b

variable {lowering}

def Small (n : ℕ) (values : List (Val R)) : Prop := ∀ value ∈ values, sizeOf value < n

theorem Small.of_lt {n : ℕ} {values : List (Val R)} (h : sizeOf values < n) : Small n values :=
  fun _ hvalue => (List.sizeOf_lt_of_mem hvalue).trans h

theorem Small.tail {n : ℕ} {value : Val R} {values : List (Val R)} (h : Small n (value :: values)) :
    Small n values := fun it hit => h it (List.mem_cons_of_mem _ hit)

@[simp] theorem slotsEqual_cons (ty : Ty) (types : List Ty) (a b : Val R) (as bs : List (Val R)) :
    slotsEqual lowering (ty :: types) (a :: as) (b :: bs) =
      (equal lowering ty a b && slotsEqual lowering types as bs) := rfl

@[simp] theorem slotsHash_cons (start : BitVec 64) (ty : Ty) (types : List Ty) (a : Val R)
    (as : List (Val R)) :
    slotsHash lowering start (ty :: types) (a :: as) =
      slotsHash lowering (combine start (hash lowering ty a)) types as := rfl

section Slots

variable {n : ℕ} (hn : Lawful lowering n)

include hn

theorem slots_symm {types : List Ty} {as bs : List (Val R)} (has : HasTypes lowering types as)
    (hbs : HasTypes lowering types bs) (hsa : Small n as) (hsb : Small n bs)
    (h : slotsEqual lowering types as bs = true) : slotsEqual lowering types bs as = true := by
  induction has generalizing bs with
  | nil => cases hbs; rfl
  | cons ha _ ih =>
    cases hbs with
    | cons hb hbs =>
      rw [slotsEqual_cons, Bool.and_eq_true] at h ⊢
      exact ⟨hn.symm _ _ _ (hsa _ List.mem_cons_self) (hsb _ List.mem_cons_self) ha hb h.1,
        ih hbs hsa.tail hsb.tail h.2⟩

theorem slots_trans {types : List Ty} {as bs cs : List (Val R)} (has : HasTypes lowering types as)
    (hbs : HasTypes lowering types bs) (hcs : HasTypes lowering types cs) (hsa : Small n as)
    (hsb : Small n bs) (hsc : Small n cs) (hab : slotsEqual lowering types as bs = true)
    (hbc : slotsEqual lowering types bs cs = true) : slotsEqual lowering types as cs = true := by
  induction has generalizing bs cs with
  | nil => cases hcs; rfl
  | cons ha _ ih =>
    cases hbs with
    | cons hb hbs =>
      cases hcs with
      | cons hc hcs =>
        rw [slotsEqual_cons, Bool.and_eq_true] at hab hbc ⊢
        exact ⟨hn.trans _ _ _ _ (hsa _ List.mem_cons_self) (hsb _ List.mem_cons_self)
          (hsc _ List.mem_cons_self) ha hb hc hab.1 hbc.1,
          ih hbs hcs hsa.tail hsb.tail hsc.tail hab.2 hbc.2⟩

theorem slots_hash {types : List Ty} {as bs : List (Val R)} (has : HasTypes lowering types as)
    (hbs : HasTypes lowering types bs) (hsa : Small n as) (hsb : Small n bs)
    (h : slotsEqual lowering types as bs = true) (start : BitVec 64) :
    slotsHash lowering start types as = slotsHash lowering start types bs := by
  induction has generalizing bs start with
  | nil => cases hbs; rfl
  | cons ha _ ih =>
    cases hbs with
    | cons hb hbs =>
      rw [slotsEqual_cons, Bool.and_eq_true] at h
      rw [slotsHash_cons, slotsHash_cons,
        hn.hash _ _ _ (hsa _ List.mem_cons_self) (hsb _ List.mem_cons_self) ha hb h.1]
      exact ih hbs hsa.tail hsb.tail h.2 _

end Slots

theorem slotsEqual_replicate (ty : Ty) (as bs : List (Val R)) :
    slotsEqual lowering (List.replicate as.length ty) as bs =
      (as.zip bs).all (fun pair => equal lowering ty pair.1 pair.2) := by
  induction as generalizing bs with
  | nil => rfl
  | cons a as ih =>
    cases bs with
    | nil => rfl
    | cons b bs =>
      rw [List.length_cons, List.replicate_succ, slotsEqual_cons, ih]
      rfl

theorem slotsHash_replicate (start : BitVec 64) (ty : Ty) (as : List (Val R)) :
    slotsHash lowering start (List.replicate as.length ty) as =
      as.foldl (fun hashed value => combine hashed (hash lowering ty value)) start := by
  induction as generalizing start with
  | nil => rfl
  | cons a as ih =>
    rw [List.length_cons, List.replicate_succ, slotsHash_cons, ih]
    rfl

theorem hasTypes_replicate {ty : Ty} {as : List (Val R)} (h : ∀ value ∈ as, HasType lowering ty value) :
    HasTypes lowering (List.replicate as.length ty) as := by
  induction as with
  | nil => exact .nil
  | cons a as ih =>
    exact .cons (h a List.mem_cons_self) (ih (fun value hvalue => h value (List.mem_cons_of_mem _ hvalue)))

/-- `b` is the member a set is asked for where it is asked for `a`'s. -/
def SameMember (lowering : Lowerings R Key) (member : Ty) {V : Type} (a b : Entry (Val R) V) : Prop :=
  b.hash = a.hash ∧ equal lowering member b.key a.key = true

def SameEntry (lowering : Lowerings R Key) (key held : Ty) (a b : Entry (Val R) (Val R)) : Prop :=
  SameMember lowering key a b ∧ equal lowering held a.value b.value = true

theorem setEqual_iff (member : Ty) (as bs : List (Entry (Val R) Int64)) :
    setEqual (equal lowering member) as bs = true ↔ Covered (SameMember lowering member) as bs := by
  simp [setEqual, Covered, SameMember]

def SmallKeys {V : Type} (n : ℕ) (entries : List (Entry (Val R) V)) : Prop :=
  ∀ entry ∈ entries, sizeOf entry.key < n

section Entries

variable {n : ℕ} (hn : Lawful lowering n) {V : Type} {key : Ty}

include hn

theorem kept_unique {entries : List (Entry (Val R) V)} (h : Kept lowering key entries)
    (hsmall : SmallKeys n entries) {a b : Entry (Val R) V} (ha : a ∈ entries) (hb : b ∈ entries)
    (hab : equal lowering key a.key b.key = true) : a = b := by
  by_contra hne
  have hboth : entries.Pairwise (fun a b => equal lowering key a.key b.key = false ∧
      equal lowering key b.key a.key = false) := by
    refine h.apart.imp_of_mem ?_
    intro a b ha hb hfalse
    refine ⟨hfalse, Bool.eq_false_iff.mpr fun htrue => ?_⟩
    have := hn.symm key _ _ (hsmall b hb) (hsmall a ha) (h.keys b hb) (h.keys a ha) htrue
    rw [hfalse] at this
    cases this
  have hsymm : Std.Symm (fun a b : Entry (Val R) V => equal lowering key a.key b.key = false ∧
      equal lowering key b.key a.key = false) := ⟨fun _ _ h => ⟨h.2, h.1⟩⟩
  have := (hboth.forall ha hb hne).1
  rw [hab] at this
  cases this

theorem covered_apart {as bs : List (Entry (Val R) V)} (has : Kept lowering key as)
    (hbs : Kept lowering key bs) (hsa : SmallKeys n as) (hsb : SmallKeys n bs) :
    as.Pairwise (fun a a' => ∀ b ∈ bs, SameMember lowering key a b → ¬ SameMember lowering key a' b) := by
  refine has.apart.imp_of_mem ?_
  intro a a' ha ha' hfalse b hb hab hab'
  have hsymm := hn.symm key _ _ (hsb b hb) (hsa a ha) (hbs.keys b hb) (has.keys a ha) hab.2
  have htrans := hn.trans key _ _ _ (hsa a ha) (hsb b hb) (hsa a' ha') (has.keys a ha)
    (hbs.keys b hb) (has.keys a' ha') hsymm hab'.2
  rw [hfalse] at htrans
  cases htrans

theorem sameMember_symm {as bs : List (Entry (Val R) V)} (has : Kept lowering key as)
    (hbs : Kept lowering key bs) (hsa : SmallKeys n as) (hsb : SmallKeys n bs)
    {a b : Entry (Val R) V} (ha : a ∈ as) (hb : b ∈ bs) (h : SameMember lowering key a b) :
    SameMember lowering key b a :=
  ⟨h.1.symm, hn.symm key _ _ (hsb b hb) (hsa a ha) (hbs.keys b hb) (has.keys a ha) h.2⟩

theorem sameMember_trans {as bs cs : List (Entry (Val R) V)} (has : Kept lowering key as)
    (hbs : Kept lowering key bs) (hcs : Kept lowering key cs) (hsa : SmallKeys n as)
    (hsb : SmallKeys n bs) (hsc : SmallKeys n cs) {a b c : Entry (Val R) V} (ha : a ∈ as)
    (hb : b ∈ bs) (hc : c ∈ cs) (hab : SameMember lowering key a b)
    (hbc : SameMember lowering key b c) : SameMember lowering key a c :=
  ⟨hbc.1.trans hab.1, hn.trans key _ _ _ (hsc c hc) (hsb b hb) (hsa a ha) (hcs.keys c hc)
    (hbs.keys b hb) (has.keys a ha) hbc.2 hab.2⟩

/-- A map finds under a key the one entry it holds under an equal key. -/
theorem mapEqual_iff {held : Ty} {as bs : List (Entry (Val R) (Val R))}
    (has : Kept lowering key as) (hbs : Kept lowering key bs) (hsa : SmallKeys n as)
    (hsb : SmallKeys n bs) :
    mapEqual (equal lowering key) (equal lowering held) as bs = true ↔
      Covered (SameEntry lowering key held) as bs := by
  simp only [mapEqual, Bool.and_eq_true, decide_eq_true_eq, List.all_eq_true, Covered]
  refine and_congr_right fun _ => forall₂_congr fun a ha => ?_
  constructor
  · intro h
    split at h
    · next there hfind =>
      have hsame := List.find?_some hfind
      rw [Bool.and_eq_true, decide_eq_true_eq] at hsame
      exact ⟨there, List.mem_of_find?_eq_some hfind, hsame, h⟩
    · cases h
  · rintro ⟨b, hb, hab, hvalues⟩
    split
    · next there hfind =>
      have hsame := List.find?_some hfind
      rw [Bool.and_eq_true, decide_eq_true_eq] at hsame
      have hthere := List.mem_of_find?_eq_some hfind
      have hback := sameMember_symm hn has hbs hsa hsb ha hthere hsame
      have hone := sameMember_trans hn hbs has hbs hsb hsa hsb hthere ha hb hback hab
      rw [← kept_unique hn hbs hsb hb hthere hone.2]
      exact hvalues
    · next hnone =>
      have := List.find?_eq_none.mp hnone b hb
      simp [hab.1, hab.2] at this

theorem entries_matched {held : Ty} {as bs : List (Entry (Val R) (Val R))}
    (has : Kept lowering key as) (hbs : Kept lowering key bs) (hsa : SmallKeys n as)
    (hsb : SmallKeys n bs) (h : Covered (SameEntry lowering key held) as bs) :
    Matched (SameEntry lowering key held) as bs :=
  h.matched ((covered_apart hn has hbs hsa hsb).imp
    fun {_ _} hne b hb hab hab' => hne b hb hab.1 hab'.1)

end Entries

/-- What two equal values of a type are made of. -/
theorem equal_tagged_iff {ty : Ty} {leaves : List Case} {one other : Case} {as bs : List (Val R)}
    (hcased : ty.saysItsCase = true) (hleaves : lowering.declared.casesOf ty = some leaves)
    (hone : one ∈ leaves) (hother : other ∈ leaves) :
    equal lowering ty (.tagged one as) (.tagged other bs) = true ↔
      one = other ∧ slotsEqual lowering (bodyOf lowering.declared one) as bs = true := by
  rw [equal_tagged lowering other as bs (caseOf_eq lowering hcased hleaves hone)]
  simp only [Bool.and_eq_true, Bool.or_eq_true, Bool.not_eq_true', decide_eq_true_eq,
    lowering.token_injective.eq_iff]
  refine and_congr_left fun _ => ⟨fun h => ?_, .inr⟩
  rcases h with hasks | heq
  · -- a type that is not asked its case has one
    have hthis := caseOf_eq lowering hcased hleaves hone
    have hthat := caseOf_eq lowering hcased hleaves hother
    cases ty with
    | ref named =>
      cases named with
      | declared key =>
        simp only [asksItsCase] at hasks
        simp only [caseOf] at hthis hthat
        split at hasks
        · cases hasks
        · next hnot =>
          split at hthis
          · next hsum => exact absurd hsum (hnot _)
          · exact Option.some.inj (hthis.symm.trans (by simpa using hthat))
      | primitive p => cases hcased
      | language case => exact Option.some.inj (hthis.symm.trans hthat)
    | union members => cases hasks
    | _ => cases hcased
  · exact heq

/-- Both absent, or both present and what they hold equal. -/
theorem equal_option_iff {held : Ty} {a b : Val R} (ha : HasType lowering (.option held) a)
    (hb : HasType lowering (.option held) b) :
    equal lowering (.option held) a b = true ↔ (a = .absent ∧ b = .absent) ∨
      ∃ x y, a = .held x ∧ b = .held y ∧ HasType lowering held x ∧ HasType lowering held y ∧
        equal lowering held x y = true := by
  obtain rfl | ⟨x, rfl, hx⟩ := ha.option_inv
  · obtain rfl | ⟨y, rfl, hy⟩ := hb.option_inv
    · simp [equal_absent]
    · simp [equal, Ty.holdsNoValue, hy.hasNoValue]
  · obtain rfl | ⟨y, rfl, hy⟩ := hb.option_inv
    · simp [equal, Ty.holdsNoValue, hx.hasNoValue]
    · rw [equal_held, hx.hasNoValue, Bool.false_or]
      constructor
      · intro h
        exact .inr ⟨x, y, rfl, rfl, hx, hy, h⟩
      · rintro (⟨h, -⟩ | ⟨x', y', h, h', -, -, hxy⟩)
        · cases h
        · cases h
          cases h'
          exact hxy

theorem equal_list_iff {element : Ty} {as bs : List (Val R)} (hreached : element.hasNoValue = false) :
    equal lowering (.list element) (.list as) (.list bs) = true ↔ as.length = bs.length ∧
      slotsEqual lowering (List.replicate as.length element) as bs = true := by
  rw [equal_list, hreached, slotsEqual_replicate]
  simp

/-- A list of what has no value is empty. -/
theorem elements_nil {element : Ty} {as : List (Val R)} (h : ∀ it ∈ as, HasType lowering element it)
    (hnone : element.hasNoValue = true) : as = [] := by
  cases as with
  | nil => rfl
  | cons a as =>
    have := (h a List.mem_cons_self).hasNoValue
    rw [hnone] at this
    cases this

theorem entries_nil {V : Type} {key : Ty} {entries : List (Entry (Val R) V)}
    (h : Kept lowering key entries) (hnone : key.hasNoValue = true) : entries = [] := by
  cases entries with
  | nil => rfl
  | cons entry entries =>
    have := (h.keys entry List.mem_cons_self).hasNoValue
    rw [hnone] at this
    cases this

theorem pairs_nil {key held : Ty} {entries : List (Entry (Val R) (Val R))}
    (h : Kept lowering key entries) (hvalues : ∀ entry ∈ entries, HasType lowering held entry.value)
    (hnone : (key.hasNoValue || held.hasNoValue) = true) : entries = [] := by
  rcases Bool.or_eq_true_iff.mp hnone with hkey | hheld
  · exact entries_nil h hkey
  · cases entries with
    | nil => rfl
    | cons entry entries =>
      have := (hvalues entry List.mem_cons_self).hasNoValue
      rw [hheld] at this
      cases this

theorem SmallKeys.of_lt {V : Type} [SizeOf V] {n : ℕ} {entries : List (Entry (Val R) V)}
    (h : sizeOf entries < n) : SmallKeys n entries :=
  fun _ hentry => (sizeOf_key hentry).trans h

theorem matched_hash {entries others : List (Entry (Val R) Int64)} {member : Ty}
    (h : Matched (SameMember lowering member) entries others)
    (hlen : entries.length = others.length) : setHash entries = setHash others := by
  rw [setHash, setHash, hlen]
  congr 1
  refine h.foldl_eq (fun m b b' => ?_) (fun m a _ b _ hab => by rw [hab.1]) _
  exact add_right_comm m _ _

section Step

variable {n : ℕ} (hn : Lawful lowering n)

include hn

theorem symm_tagged {ty : Ty} (hcased : ty.saysItsCase = true) {a b : Val R} (hsa : sizeOf a < n + 1)
    (hsb : sizeOf b < n + 1) (ha : HasType lowering ty a) (hb : HasType lowering ty b)
    (h : equal lowering ty a b = true) : equal lowering ty b a = true := by
  obtain ⟨leaves, one, as, rfl, hleaves, hone, has⟩ := ha.tagged_inv hcased
  obtain ⟨leaves', other, bs, rfl, hleaves', hother, hbs⟩ := hb.tagged_inv hcased
  cases hleaves.symm.trans hleaves'
  rw [equal_tagged_iff hcased hleaves hone hother] at h
  obtain ⟨rfl, hslots⟩ := h
  rw [equal_tagged_iff hcased hleaves hone hone]
  simp only [Val.tagged.sizeOf_spec] at hsa hsb
  exact ⟨rfl, slots_symm hn has hbs (.of_lt (by omega)) (.of_lt (by omega)) hslots⟩

theorem trans_tagged {ty : Ty} (hcased : ty.saysItsCase = true) {a b c : Val R}
    (hsa : sizeOf a < n + 1) (hsb : sizeOf b < n + 1) (hsc : sizeOf c < n + 1)
    (ha : HasType lowering ty a) (hb : HasType lowering ty b) (hc : HasType lowering ty c)
    (hab : equal lowering ty a b = true) (hbc : equal lowering ty b c = true) :
    equal lowering ty a c = true := by
  obtain ⟨leaves, one, as, rfl, hleaves, hone, has⟩ := ha.tagged_inv hcased
  obtain ⟨leaves', other, bs, rfl, hleaves', hother, hbs⟩ := hb.tagged_inv hcased
  obtain ⟨leaves'', third, cs, rfl, hleaves'', hthird, hcs⟩ := hc.tagged_inv hcased
  cases hleaves.symm.trans hleaves'
  cases hleaves.symm.trans hleaves''
  rw [equal_tagged_iff hcased hleaves hone hother] at hab
  obtain ⟨rfl, hslots⟩ := hab
  rw [equal_tagged_iff hcased hleaves hone hthird] at hbc
  obtain ⟨rfl, hslots'⟩ := hbc
  rw [equal_tagged_iff hcased hleaves hone hone]
  simp only [Val.tagged.sizeOf_spec] at hsa hsb hsc
  exact ⟨rfl, slots_trans hn has hbs hcs (.of_lt (by omega)) (.of_lt (by omega)) (.of_lt (by omega))
    hslots hslots'⟩

theorem hash_tagged_eq {ty : Ty} (hcased : ty.saysItsCase = true) {a b : Val R}
    (hsa : sizeOf a < n + 1) (hsb : sizeOf b < n + 1) (ha : HasType lowering ty a)
    (hb : HasType lowering ty b) (h : equal lowering ty a b = true) :
    hash lowering ty a = hash lowering ty b := by
  obtain ⟨leaves, one, as, rfl, hleaves, hone, has⟩ := ha.tagged_inv hcased
  obtain ⟨leaves', other, bs, rfl, hleaves', hother, hbs⟩ := hb.tagged_inv hcased
  cases hleaves.symm.trans hleaves'
  rw [equal_tagged_iff hcased hleaves hone hother] at h
  obtain ⟨rfl, hslots⟩ := h
  have hcase := caseOf_eq lowering hcased hleaves hone
  rw [hash_tagged lowering as hcase, hash_tagged lowering bs hcase]
  simp only [Val.tagged.sizeOf_spec] at hsa hsb
  exact slots_hash hn has hbs (.of_lt (by omega)) (.of_lt (by omega)) hslots _

theorem symm_succ (ty : Ty) (a b : Val R) (hsa : sizeOf a < n + 1) (hsb : sizeOf b < n + 1)
    (ha : HasType lowering ty a) (hb : HasType lowering ty b) (h : equal lowering ty a b = true) :
    equal lowering ty b a = true := by
  cases ty with
  | prim p =>
    cases ha with
    | tagged hcased => cases hcased
    | int word | bool truth =>
      simp only [equal_int, equal_bool, decide_eq_true_eq] at h ⊢
      exact h.symm
    | amount _ kept hint hbool =>
      cases hb with
      | tagged hcased => cases hcased
      | int | bool => contradiction
      | amount _ kept' =>
        rw [equal_amount lowering hint hbool, decide_eq_true_eq, Primitives.compare_eq_zero] at h ⊢
        exact h.symm
  | ref named =>
    cases named with
    | primitive p =>
      cases ha with
      | tagged hcased => cases hcased
    | _ => exact symm_tagged hn rfl hsa hsb ha hb h
  | union members => exact symm_tagged hn rfl hsa hsb ha hb h
  | option held =>
    obtain ⟨rfl, rfl⟩ | ⟨x, y, rfl, rfl, hx, hy, hxy⟩ := (equal_option_iff ha hb).mp h
    · exact h
    · simp only [Val.held.sizeOf_spec] at hsa hsb
      have hyx := hn.symm held x y (by omega) (by omega) hx hy hxy
      exact (equal_option_iff hb ha).mpr (.inr ⟨y, x, rfl, rfl, hy, hx, hyx⟩)
  | tuple types =>
    obtain ⟨as, rfl, has⟩ := ha.tuple_inv
    obtain ⟨bs, rfl, hbs⟩ := hb.tuple_inv
    simp only [Val.members.sizeOf_spec] at hsa hsb
    rw [equal_tuple] at h ⊢
    exact slots_symm hn has hbs (.of_lt (by omega)) (.of_lt (by omega)) h
  | fn takes answers =>
    rw [equal_fn] at h
    cases h
  | list element =>
    obtain ⟨as, rfl, has⟩ := ha.list_inv
    obtain ⟨bs, rfl, hbs⟩ := hb.list_inv
    cases hreached : element.hasNoValue with
    | true =>
      rw [elements_nil has hreached, elements_nil hbs hreached, equal_list, hreached]
      rfl
    | false =>
      simp only [Val.list.sizeOf_spec] at hsa hsb
      rw [equal_list_iff hreached] at h ⊢
      have hbs' := hasTypes_replicate hbs
      rw [← h.1] at hbs' ⊢
      exact ⟨rfl, slots_symm hn (hasTypes_replicate has) hbs' (.of_lt (by omega)) (.of_lt (by omega)) h.2⟩
  | set member =>
    obtain ⟨as, rfl, has⟩ := ha.set_inv
    obtain ⟨bs, rfl, hbs⟩ := hb.set_inv
    rw [equal_set, Bool.or_eq_true, setEqual_iff] at h ⊢
    refine h.imp_right fun hcovered => ?_
    simp only [Val.set.sizeOf_spec] at hsa hsb
    have hsa : SmallKeys n as := .of_lt (by omega)
    have hsb : SmallKeys n bs := .of_lt (by omega)
    obtain ⟨hlen, hback⟩ := (hcovered.matched (covered_apart hn has hbs hsa hsb)).covered_symm
    refine ⟨hlen, fun b hb => ?_⟩
    obtain ⟨a, ha, hab⟩ := hback b hb
    exact ⟨a, ha, sameMember_symm hn has hbs hsa hsb ha hb hab⟩
  | map key held =>
    obtain ⟨as, rfl, has, hvas⟩ := ha.map_inv
    obtain ⟨bs, rfl, hbs, hvbs⟩ := hb.map_inv
    simp only [Val.map.sizeOf_spec] at hsa hsb
    have hka : SmallKeys n as := .of_lt (by omega)
    have hkb : SmallKeys n bs := .of_lt (by omega)
    rw [equal_map, Bool.or_eq_true, mapEqual_iff hn has hbs hka hkb] at h
    rw [equal_map, Bool.or_eq_true, mapEqual_iff hn hbs has hkb hka]
    refine h.imp_right fun hcovered => ?_
    obtain ⟨hlen, hback⟩ := (entries_matched hn has hbs hka hkb hcovered).covered_symm
    refine ⟨hlen, fun b hb => ?_⟩
    obtain ⟨a, ha, hab⟩ := hback b hb
    have hva := sizeOf_value ha
    have hvb := sizeOf_value hb
    exact ⟨a, ha, sameMember_symm hn has hbs hka hkb ha hb hab.1,
      hn.symm held _ _ (by omega) (by omega) (hvas a ha) (hvbs b hb) hab.2⟩
  | var | nothing | never =>
    cases ha with
    | tagged hcased => cases hcased

theorem trans_succ (ty : Ty) (a b c : Val R) (hsa : sizeOf a < n + 1) (hsb : sizeOf b < n + 1)
    (hsc : sizeOf c < n + 1) (ha : HasType lowering ty a) (hb : HasType lowering ty b)
    (hc : HasType lowering ty c) (hab : equal lowering ty a b = true)
    (hbc : equal lowering ty b c = true) : equal lowering ty a c = true := by
  cases ty with
  | prim p =>
    cases ha with
    | tagged hcased => cases hcased
    | int word | bool truth =>
      simp only [equal_int, equal_bool, decide_eq_true_eq] at hab hbc ⊢
      exact hab.trans hbc
    | amount _ kept hint hbool =>
      cases hb with
      | tagged hcased => cases hcased
      | int | bool => contradiction
      | amount _ kept' =>
        cases hc with
        | tagged hcased => cases hcased
        | int | bool => contradiction
        | amount _ kept'' =>
          rw [equal_amount lowering hint hbool, decide_eq_true_eq,
            Primitives.compare_eq_zero] at hab hbc ⊢
          exact hab.trans hbc
  | ref named =>
    cases named with
    | primitive p =>
      cases ha with
      | tagged hcased => cases hcased
    | _ => exact trans_tagged hn rfl hsa hsb hsc ha hb hc hab hbc
  | union members => exact trans_tagged hn rfl hsa hsb hsc ha hb hc hab hbc
  | option held =>
    obtain ⟨rfl, rfl⟩ | ⟨x, y, rfl, rfl, hx, hy, hxy⟩ := (equal_option_iff ha hb).mp hab
    · exact hbc
    · obtain ⟨h, -⟩ | ⟨y', z, h, rfl, -, hz, hyz⟩ := (equal_option_iff hb hc).mp hbc
      · cases h
      · cases h
        simp only [Val.held.sizeOf_spec] at hsa hsb hsc
        have hxz := hn.trans held x y z (by omega) (by omega) (by omega) hx hy hz hxy hyz
        exact (equal_option_iff ha hc).mpr (.inr ⟨x, z, rfl, rfl, hx, hz, hxz⟩)
  | tuple types =>
    obtain ⟨as, rfl, has⟩ := ha.tuple_inv
    obtain ⟨bs, rfl, hbs⟩ := hb.tuple_inv
    obtain ⟨cs, rfl, hcs⟩ := hc.tuple_inv
    simp only [Val.members.sizeOf_spec] at hsa hsb hsc
    rw [equal_tuple] at hab hbc ⊢
    exact slots_trans hn has hbs hcs (.of_lt (by omega)) (.of_lt (by omega)) (.of_lt (by omega))
      hab hbc
  | fn takes answers =>
    rw [equal_fn] at hab
    cases hab
  | list element =>
    obtain ⟨as, rfl, has⟩ := ha.list_inv
    obtain ⟨bs, rfl, hbs⟩ := hb.list_inv
    obtain ⟨cs, rfl, hcs⟩ := hc.list_inv
    cases hreached : element.hasNoValue with
    | true =>
      rw [equal_list, hreached]
      rfl
    | false =>
      simp only [Val.list.sizeOf_spec] at hsa hsb hsc
      rw [equal_list_iff hreached] at hab hbc ⊢
      have hbs' := hasTypes_replicate hbs
      have hcs' := hasTypes_replicate hcs
      rw [← hab.1] at hbs' hbc
      rw [← hbc.1] at hcs'
      exact ⟨hbc.1, slots_trans hn (hasTypes_replicate has) hbs' hcs' (.of_lt (by omega))
        (.of_lt (by omega)) (.of_lt (by omega)) hab.2 hbc.2⟩
  | set member =>
    obtain ⟨as, rfl, has⟩ := ha.set_inv
    obtain ⟨bs, rfl, hbs⟩ := hb.set_inv
    obtain ⟨cs, rfl, hcs⟩ := hc.set_inv
    rw [equal_set, Bool.or_eq_true, setEqual_iff] at hab hbc ⊢
    simp only [Val.set.sizeOf_spec] at hsa hsb hsc
    rcases hab with hnone | hab
    · exact .inl hnone
    · refine hbc.imp_right fun hbc => hab.trans hbc fun a ha b hb c hc => ?_
      exact sameMember_trans hn has hbs hcs (.of_lt (by omega)) (.of_lt (by omega))
        (.of_lt (by omega)) ha hb hc
  | map key held =>
    obtain ⟨as, rfl, has, hvas⟩ := ha.map_inv
    obtain ⟨bs, rfl, hbs, hvbs⟩ := hb.map_inv
    obtain ⟨cs, rfl, hcs, hvcs⟩ := hc.map_inv
    simp only [Val.map.sizeOf_spec] at hsa hsb hsc
    have hka : SmallKeys n as := .of_lt (by omega)
    have hkb : SmallKeys n bs := .of_lt (by omega)
    have hkc : SmallKeys n cs := .of_lt (by omega)
    rw [equal_map, Bool.or_eq_true, mapEqual_iff hn has hbs hka hkb] at hab
    rw [equal_map, Bool.or_eq_true, mapEqual_iff hn hbs hcs hkb hkc] at hbc
    rw [equal_map, Bool.or_eq_true, mapEqual_iff hn has hcs hka hkc]
    rcases hab with hnone | hab
    · exact .inl hnone
    · refine hbc.imp_right fun hbc => hab.trans hbc fun a ha b hb c hc hab hbc => ?_
      have hva := sizeOf_value ha
      have hvb := sizeOf_value hb
      have hvc := sizeOf_value hc
      exact ⟨sameMember_trans hn has hbs hcs hka hkb hkc ha hb hc hab.1 hbc.1,
        hn.trans held _ _ _ (by omega) (by omega) (by omega) (hvas a ha) (hvbs b hb) (hvcs c hc)
          hab.2 hbc.2⟩
  | var | nothing | never =>
    cases ha with
    | tagged hcased => cases hcased

theorem hash_succ (ty : Ty) (a b : Val R) (hsa : sizeOf a < n + 1) (hsb : sizeOf b < n + 1)
    (ha : HasType lowering ty a) (hb : HasType lowering ty b) (h : equal lowering ty a b = true) :
    hash lowering ty a = hash lowering ty b := by
  cases ty with
  | prim p =>
    cases ha with
    | tagged hcased => cases hcased
    | int word | bool truth =>
      simp only [equal_int, equal_bool, decide_eq_true_eq] at h
      simp only [hash_int, hash_bool, h]
    | amount _ kept hint hbool =>
      cases hb with
      | tagged hcased => cases hcased
      | int | bool => contradiction
      | amount _ kept' =>
        rw [equal_amount lowering hint hbool, decide_eq_true_eq, Primitives.compare_eq_zero] at h
        rw [hash_amount lowering hint hbool, hash_amount lowering hint hbool]
        exact lowering.primitives.hash_names p kept kept' h
  | ref named =>
    cases named with
    | primitive p =>
      cases ha with
      | tagged hcased => cases hcased
    | _ => exact hash_tagged_eq hn rfl hsa hsb ha hb h
  | union members => exact hash_tagged_eq hn rfl hsa hsb ha hb h
  | option held =>
    obtain ⟨rfl, rfl⟩ | ⟨x, y, rfl, rfl, hx, hy, hxy⟩ := (equal_option_iff ha hb).mp h
    · rfl
    · simp only [Val.held.sizeOf_spec] at hsa hsb
      rw [hash_held, hash_held, hn.hash held x y (by omega) (by omega) hx hy hxy]
  | tuple types =>
    obtain ⟨as, rfl, has⟩ := ha.tuple_inv
    obtain ⟨bs, rfl, hbs⟩ := hb.tuple_inv
    simp only [Val.members.sizeOf_spec] at hsa hsb
    rw [equal_tuple] at h
    rw [hash_tuple, hash_tuple,
      slots_hash hn has hbs (.of_lt (by omega)) (.of_lt (by omega)) h HASH_START]
  | fn takes answers =>
    rw [equal_fn] at h
    cases h
  | list element =>
    obtain ⟨as, rfl, has⟩ := ha.list_inv
    obtain ⟨bs, rfl, hbs⟩ := hb.list_inv
    cases hreached : element.hasNoValue with
    | true => rw [elements_nil has hreached, elements_nil hbs hreached]
    | false =>
      simp only [Val.list.sizeOf_spec] at hsa hsb
      rw [equal_list_iff hreached] at h
      have hbs' := hasTypes_replicate hbs
      rw [← h.1] at hbs'
      have hslots := slots_hash hn (hasTypes_replicate has) hbs' (.of_lt (by omega))
        (.of_lt (by omega)) h.2 (combine HASH_START (BitVec.ofNat 64 as.length))
      rw [hash_list, hash_list, ← slotsHash_replicate, ← slotsHash_replicate, ← h.1, hslots]
  | set member =>
    obtain ⟨as, rfl, has⟩ := ha.set_inv
    obtain ⟨bs, rfl, hbs⟩ := hb.set_inv
    rw [hash_set, hash_set]
    cases hreached : member.hasNoValue with
    | true => rw [entries_nil has hreached, entries_nil hbs hreached]
    | false =>
      rw [equal_set, hreached, Bool.false_or, setEqual_iff] at h
      simp only [Val.set.sizeOf_spec] at hsa hsb
      exact matched_hash (h.matched (covered_apart hn has hbs (.of_lt (by omega))
        (.of_lt (by omega)))) h.1
  | map key held =>
    obtain ⟨as, rfl, has, hvas⟩ := ha.map_inv
    obtain ⟨bs, rfl, hbs, hvbs⟩ := hb.map_inv
    rw [hash_map, hash_map]
    cases hreached : key.hasNoValue || held.hasNoValue with
    | true => rw [pairs_nil has hvas hreached, pairs_nil hbs hvbs hreached]
    | false =>
      simp only [Val.map.sizeOf_spec] at hsa hsb
      have hka : SmallKeys n as := .of_lt (by omega)
      have hkb : SmallKeys n bs := .of_lt (by omega)
      rw [equal_map, hreached, Bool.false_or, mapEqual_iff hn has hbs hka hkb] at h
      rw [h.1]
      congr 1
      refine (entries_matched hn has hbs hka hkb h).foldl_eq (fun m b b' => ?_)
        (fun m a ha b hb hab => ?_) _
      · exact add_right_comm m _ _
      · have hva := sizeOf_value ha
        have hvb := sizeOf_value hb
        rw [hab.1.1, hn.hash held _ _ (by omega) (by omega) (hvas a ha) (hvbs b hb) hab.2]
  | var | nothing | never =>
    cases ha with
    | tagged hcased => cases hcased

end Step

theorem lawful (n : ℕ) : Lawful lowering n := by
  induction n with
  | zero =>
    constructor
    · intro _ _ _ h
      exact absurd h (Nat.not_lt_zero _)
    · intro _ _ _ _ h
      exact absurd h (Nat.not_lt_zero _)
    · intro _ _ _ h
      exact absurd h (Nat.not_lt_zero _)
  | succ n hn => exact ⟨symm_succ hn, trans_succ hn, hash_succ hn⟩

theorem equal_symm {ty : Ty} {a b : Val R} (ha : HasType lowering ty a) (hb : HasType lowering ty b)
    (h : equal lowering ty a b = true) : equal lowering ty b a = true :=
  (lawful (sizeOf a + sizeOf b + 1)).symm ty a b (by omega) (by omega) ha hb h

theorem equal_trans {ty : Ty} {a b c : Val R} (ha : HasType lowering ty a)
    (hb : HasType lowering ty b) (hc : HasType lowering ty c) (hab : equal lowering ty a b = true)
    (hbc : equal lowering ty b c = true) : equal lowering ty a c = true :=
  (lawful (sizeOf a + sizeOf b + sizeOf c + 1)).trans ty a b c (by omega) (by omega) (by omega)
    ha hb hc hab hbc

theorem hash_of_equal {ty : Ty} {a b : Val R} (ha : HasType lowering ty a)
    (hb : HasType lowering ty b) (h : equal lowering ty a b = true) :
    hash lowering ty a = hash lowering ty b :=
  (lawful (sizeOf a + sizeOf b + 1)).hash ty a b (by omega) (by omega) ha hb h

end SoutherNative.EqualHash
