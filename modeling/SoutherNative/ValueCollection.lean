import SoutherNative.EqualHash
import SoutherNative.Collection

set_option autoImplicit false

/-!
# Sets and maps of values of a type

The runtime's tries kept over values of a type by the comparator and the hasher of it. What the
runtime's walks answer of two tries is what `Equality` and `Hashing` say of the entries they list.
-/
namespace SoutherNative.ValueCollection
open Transport HashTrie Values Hashing Equality Typing Matching EqualHash Collection

variable {R Key : Type} [LinearOrder Key] {V : Type}

abbrev Of (lowering : Lowerings R Key) (ty : Ty) := {value : Val R // HasType lowering ty value}

def keyHash (lowering : Lowerings R Key) (ty : Ty) (value : Of lowering ty) : BitVec 64 :=
  Hashing.hash lowering ty value.1

def keyEqual (lowering : Lowerings R Key) (ty : Ty) (a b : Of lowering ty) : Bool :=
  equal lowering ty a.1 b.1

def bare {lowering : Lowerings R Key} {ty : Ty} (entry : Entry (Of lowering ty) V) :
    Entry (Val R) V :=
  ⟨entry.hash, entry.key.1, entry.value⟩

def entriesOf {lowering : Lowerings R Key} {ty : Ty} (trie : Trie (Of lowering ty) V) :
    List (Entry (Val R) V) :=
  trie.entries.map bare

def Made {lowering : Lowerings R Key} {ty : Ty} (trie : Trie (Of lowering ty) V) : Prop :=
  ∃ list, Refines (keyHash lowering ty) (keyEqual lowering ty) trie list

variable {lowering : Lowerings R Key} {ty : Ty}

theorem hash_of_keyEqual (a b : Of lowering ty) (h : keyEqual lowering ty a b = true) :
    keyHash lowering ty a = keyHash lowering ty b :=
  hash_of_equal a.2 b.2 h

theorem Made.entry_hash {trie : Trie (Of lowering ty) V} (h : Made trie) :
    ∀ entry ∈ trie.entries, entry.hash = keyHash lowering ty entry.key := by
  obtain ⟨list, h⟩ := h
  intro entry hentry
  unfold Trie.entries at hentry
  cases hroot : trie.root with
  | none =>
    rw [hroot] at hentry
    cases hentry
  | some node =>
    rw [hroot] at hentry
    exact (Sound.entries _ (h.sound node hroot 0#64) entry hentry).1

theorem Made.size_eq {trie : Trie (Of lowering ty) V} (h : Made trie) :
    trie.size = trie.entries.length := by
  obtain ⟨list, h⟩ := h
  rw [h.size, length_entries h]

theorem Made.apart {trie : Trie (Of lowering ty) V} (h : Made trie) :
    trie.entries.Pairwise (fun a b => keyEqual lowering ty a.key b.key = false) := by
  obtain ⟨list, h⟩ := h
  have hsymm : ∀ {a b : Of lowering ty × V}, keyEqual lowering ty a.1 b.1 = false →
      keyEqual lowering ty b.1 a.1 = false := by
    intro a b hab
    by_contra hba
    rw [Bool.not_eq_false] at hba
    have := equal_symm b.1.2 a.1.2 hba
    rw [← keyEqual, hab] at this
    cases this
  have hdistinct := (h.perm.pairwise_iff hsymm).mpr h.distinct
  rwa [listed, List.pairwise_map] at hdistinct

theorem Made.kept {trie : Trie (Of lowering ty) V} (h : Made trie) :
    Kept lowering ty (entriesOf trie) where
  hash := by
    intro entry hentry
    obtain ⟨entry, hmem, rfl⟩ := List.mem_map.mp hentry
    exact h.entry_hash entry hmem
  keys := by
    intro entry hentry
    obtain ⟨entry, -, rfl⟩ := List.mem_map.mp hentry
    exact entry.key.2
  apart := List.pairwise_map.mpr h.apart

/-- Two entries of one trie under keys equal to the one looked up are one. -/
theorem Made.unique {trie : Trie (Of lowering ty) V} (h : Made trie)
    {one other : Entry (Of lowering ty) V} (hone : one ∈ trie.entries)
    (hother : other ∈ trie.entries) {key : Of lowering ty}
    (heq : keyEqual lowering ty one.key key = true)
    (heq' : keyEqual lowering ty other.key key = true) : one = other := by
  have hkept : ∀ a b : Entry (Of lowering ty) V, keyEqual lowering ty a.key key = true →
      keyEqual lowering ty b.key key = true → keyEqual lowering ty a.key b.key = true :=
    fun a b hak hbk => equal_trans a.key.2 key.2 b.key.2 hak (equal_symm b.key.2 key.2 hbk)
  by_contra hne
  have hboth : trie.entries.Pairwise (fun a b => ¬ (keyEqual lowering ty a.key key = true ∧
      keyEqual lowering ty b.key key = true)) := by
    refine h.apart.imp ?_
    intro a b hfalse hab
    have := hkept a b hab.1 hab.2
    rw [hfalse] at this
    cases this
  have hsymm : Std.Symm (fun a b : Entry (Of lowering ty) V =>
      ¬ (keyEqual lowering ty a.key key = true ∧ keyEqual lowering ty b.key key = true)) :=
    ⟨fun _ _ hab hba => hab ⟨hba.2, hba.1⟩⟩
  exact hboth.forall hone hother hne ⟨heq, heq'⟩

/-- Looking a key up down the trie is looking it up in what the trie lists. -/
theorem Made.find_eq {trie : Trie (Of lowering ty) V} (h : Made trie) {hash : BitVec 64}
    {key : Of lowering ty} (hkey : hash = keyHash lowering ty key) :
    trie.find (keyEqual lowering ty) hash key =
      trie.entries.find? (fun entry => same (keyEqual lowering ty) entry hash key) := by
  have hfound : Found (keyEqual lowering ty) key trie.entries
      (trie.find (keyEqual lowering ty) hash key) := by
    obtain ⟨list, h⟩ := h
    unfold Trie.find Trie.entries
    cases hroot : trie.root with
    | none => simp [Found]
    | some node => exact findFrom_found hash_of_keyEqual hkey (h.sound node hroot hash) (.refl _ _)
  cases hlist : trie.entries.find? (fun entry => same (keyEqual lowering ty) entry hash key) with
  | none =>
    cases hfind : trie.find (keyEqual lowering ty) hash key with
    | none => rfl
    | some there =>
      rw [hfind] at hfound
      have hnot := List.find?_eq_none.mp hlist there hfound.1
      have hhash := h.entry_hash there hfound.1
      rw [hash_of_keyEqual there.key key hfound.2, ← hkey] at hhash
      simp [same, hhash, hfound.2] at hnot
  | some there =>
    have hsame := List.find?_some hlist
    rw [same, Bool.and_eq_true] at hsame
    have hthere := List.mem_of_find?_eq_some hlist
    cases hfind : trie.find (keyEqual lowering ty) hash key with
    | none =>
      rw [hfind] at hfound
      have := hfound there hthere
      rw [hsame.2] at this
      cases this
    | some other =>
      rw [hfind] at hfound
      rw [h.unique hfound.1 hthere hfound.2 hsame.2]

theorem setEqual_eq {a b : Collection.Set (Of lowering ty)} (ha : Made a) (hb : Made b) :
    Collection.setEqual (keyEqual lowering ty) a b =
      Equality.setEqual (equal lowering ty) (entriesOf a) (entriesOf b) := by
  rw [Collection.setEqual, Equality.setEqual, ha.size_eq, hb.size_eq]
  simp only [entriesOf, List.length_map, List.all_map]
  congr 1
  rw [Bool.eq_iff_iff, List.all_eq_true, List.all_eq_true]
  refine forall₂_congr fun entry hentry => ?_
  rw [hb.find_eq (ha.entry_hash entry hentry), List.isSome_find?, Function.comp, List.any_map]
  rfl

theorem setHash_eq {set : Collection.Set (Of lowering ty)} (h : Made set) :
    Collection.setHash set = Hashing.setHash (entriesOf set) := by
  rw [Collection.setHash, Hashing.setHash, h.size_eq, entriesOf, List.length_map, List.foldl_map]
  rfl

theorem mapEqual_eq {held : Ty} {a b : Collection.Map (Of lowering ty) (Val R)} (ha : Made a)
    (hb : Made b) :
    Collection.mapEqual (keyEqual lowering ty) (equal lowering held) a b =
      Equality.mapEqual (equal lowering ty) (equal lowering held) (entriesOf a) (entriesOf b) := by
  rw [Collection.mapEqual, Equality.mapEqual, ha.size_eq, hb.size_eq]
  simp only [entriesOf, List.length_map, List.all_map]
  congr 1
  rw [Bool.eq_iff_iff, List.all_eq_true, List.all_eq_true]
  refine forall₂_congr fun entry hentry => ?_
  have hlist : (b.entries.map bare).find? (fun there =>
      there.hash = (bare entry).hash && equal lowering ty there.key (bare entry).key) =
      (b.entries.find? (fun there =>
        same (keyEqual lowering ty) there entry.hash entry.key)).map bare :=
    List.find?_map
  rw [hb.find_eq (ha.entry_hash entry hentry), Function.comp, hlist]
  cases b.entries.find? (fun there => same (keyEqual lowering ty) there entry.hash entry.key) <;> rfl

theorem mapHash_eq {held : Ty} {map : Collection.Map (Of lowering ty) (Val R)} (h : Made map) :
    Collection.mapHash (Hashing.hash lowering held) map =
      Hashing.hash lowering (.map ty held) (.map (entriesOf map)) := by
  rw [Collection.mapHash, hash_map, h.size_eq, entriesOf, List.length_map, List.foldl_map]
  rfl

/-- A hasher agrees with its comparator: over the values of a type, and over the tries the runtime
    walks where those are sets and maps. -/
theorem hasher_respects_comparator (lowering : Lowerings R Key) :
    (∀ (ty : Ty) (a b : Val R), HasType lowering ty a → HasType lowering ty b →
      equal lowering ty a b = true → Hashing.hash lowering ty a = Hashing.hash lowering ty b) ∧
    (∀ (member : Ty) (a b : Collection.Set (Of lowering member)), Made a → Made b →
      Collection.setEqual (keyEqual lowering member) a b = true →
        Collection.setHash a = Collection.setHash b) ∧
    ∀ (key held : Ty) (a b : Collection.Map (Of lowering key) (Val R)), Made a → Made b →
      (∀ entry ∈ a.entries, HasType lowering held entry.value) →
      (∀ entry ∈ b.entries, HasType lowering held entry.value) →
      Collection.mapEqual (keyEqual lowering key) (equal lowering held) a b = true →
        Collection.mapHash (Hashing.hash lowering held) a =
          Collection.mapHash (Hashing.hash lowering held) b := by
  refine ⟨fun ty a b => hash_of_equal, ?_, ?_⟩
  · intro member a b ha hb h
    have hset : ∀ {set : Collection.Set (Of lowering member)}, Made set →
        HasType lowering (.set member) (.set (entriesOf set)) :=
      fun hmade => .set hmade.kept.hash hmade.kept.keys hmade.kept.apart
    rw [setEqual_eq ha hb] at h
    have heq : equal lowering (.set member) (.set (entriesOf a)) (.set (entriesOf b)) = true := by
      rw [equal_set, h, Bool.or_true]
    rw [setHash_eq ha, setHash_eq hb, ← hash_set lowering member, ← hash_set lowering member]
    exact hash_of_equal (hset ha) (hset hb) heq
  · intro key held a b ha hb hva hvb h
    have hmap : ∀ {map : Collection.Map (Of lowering key) (Val R)}, Made map →
        (∀ entry ∈ map.entries, HasType lowering held entry.value) →
        HasType lowering (.map key held) (.map (entriesOf map)) := by
      intro map hmade hvalues
      refine .map hmade.kept.hash hmade.kept.keys ?_ hmade.kept.apart
      intro entry hentry
      obtain ⟨entry, hmem, rfl⟩ := List.mem_map.mp hentry
      exact hvalues entry hmem
    rw [mapEqual_eq ha hb] at h
    have heq : equal lowering (.map key held) (.map (entriesOf a)) (.map (entriesOf b)) = true := by
      rw [equal_map, h, Bool.or_true]
    rw [mapHash_eq ha, mapHash_eq hb]
    exact hash_of_equal (hmap ha hva) (hmap hb hvb) heq

section Decimals

def units : Declared := ⟨fun _ => .unit, fun _ _ _ _ h => by cases h⟩

def scaled : Primitives (ℕ × ℕ) ℚ where
  names _ kept := kept.1 / 10 ^ kept.2
  hash _ kept := BitVec.ofInt 64 ((kept.1 : ℚ) / 10 ^ kept.2).num
  hash_names _ _ _ h := congrArg (fun amount : ℚ => BitVec.ofInt 64 amount.num) h

def amounts : Lowerings (ℕ × ℕ) ℚ where
  declared := units
  token := Case.place
  token_injective := Case.place_injective
  site _ := ⟨[], [], .never⟩
  primitives := scaled

def decimal (kept : ℕ × ℕ) : Of amounts (.prim .decimal) :=
  ⟨.amount .decimal kept, .amount .decimal kept (by decide) (by decide)⟩

def alone (kept : ℕ × ℕ) (value : V) : Trie (Of amounts (.prim .decimal)) V :=
  EMPTY.with (keyEqual _ _) ⟨keyHash _ _ (decimal kept), decimal kept, value⟩ .keep

theorem decimal_equal (a b : Of amounts (.prim .decimal)) :
    ∃ x y : ℕ × ℕ, a.1 = .amount .decimal x ∧ b.1 = .amount .decimal y ∧
      (keyEqual _ _ a b = true ↔ (x.1 / 10 ^ x.2 : ℚ) = y.1 / 10 ^ y.2) := by
  have hamount : ∀ v : Of amounts (.prim .decimal),
      ∃ x : ℕ × ℕ, v.1 = .amount .decimal x := by
    rintro ⟨value, hvalue⟩
    cases hvalue with
    | tagged hcased => cases hcased
    | amount p kept => exact ⟨kept, rfl⟩
  obtain ⟨x, hx⟩ := hamount a
  obtain ⟨y, hy⟩ := hamount b
  refine ⟨x, y, hx, hy, ?_⟩
  rw [keyEqual, hx, hy, equal_amount _ (by decide) (by decide), decide_eq_true_eq,
    Primitives.compare_eq_zero]
  rfl

theorem decimal_equivalence :
    Equivalence (fun a b : Of amounts (.prim .decimal) =>
      keyEqual _ _ a b = true) where
  refl a := by
    obtain ⟨x, y, hx, hy, heq⟩ := decimal_equal a a
    cases hx.symm.trans hy
    exact heq.mpr rfl
  symm h := equal_symm (Subtype.property _) (Subtype.property _) h
  trans h h' := equal_trans (Subtype.property _) (Subtype.property _) (Subtype.property _) h h'

theorem refines_alone (kept : ℕ × ℕ) (value : V) :
    Refines (keyHash amounts (.prim .decimal)) (keyEqual _ _) (alone kept value)
      [(decimal kept, value)] :=
  refines_empty.with decimal_equivalence hash_of_keyEqual .keep (decimal kept) value (by simp)

theorem entriesOf_alone (kept : ℕ × ℕ) (value : V) :
    entriesOf (alone kept value) = [⟨keyHash _ _ (decimal kept), (decimal kept).1, value⟩] := by
  have hmade : Made (alone kept value) := ⟨_, refines_alone kept value⟩
  have hlisted := List.perm_singleton.mp (refines_alone kept value).perm
  obtain ⟨entry, hentries, hentry⟩ := List.map_eq_singleton_iff.mp hlisted
  obtain ⟨hkey, hvalue⟩ := Prod.mk.inj hentry
  have hhash := hmade.entry_hash entry (by simp [hentries])
  rw [entriesOf, hentries, List.map_singleton, bare, hhash, hkey, hvalue]

theorem decimal_equal_scaled : equal amounts (.prim .decimal)
    (.amount .decimal (15, 1)) (.amount .decimal (150, 2)) = true := by
  rw [equal_amount _ (by decide) (by decide), decide_eq_true_eq, Primitives.compare_eq_zero]
  show ((15 : ℕ) : ℚ) / 10 ^ 1 = (150 : ℕ) / 10 ^ 2
  norm_num

/-- `1.5` and `1.50` are one amount, and hash as one. -/
theorem hasher_respects_comparator_decimals :
    Hashing.hash amounts (.list (.prim .decimal)) (.list [.amount .decimal (15, 1)]) =
      Hashing.hash amounts (.list (.prim .decimal)) (.list [.amount .decimal (150, 2)]) ∧
    Collection.setHash (alone (15, 1) 0) = Collection.setHash (alone (150, 2) 0) ∧
    Collection.mapHash (Hashing.hash amounts (.prim .int)) (alone (15, 1) (.word 5#64)) =
      Collection.mapHash (Hashing.hash amounts (.prim .int))
        (alone (150, 2) (.word 5#64)) := by
  have h := hasher_respects_comparator amounts
  have hlist : ∀ kept : ℕ × ℕ, HasType amounts (.list (.prim .decimal))
      (.list [.amount .decimal kept]) := by
    intro kept
    refine .list fun value hvalue => ?_
    rw [List.mem_singleton.mp hvalue]
    exact (decimal kept).2
  have hmade : ∀ {V : Type} (kept : ℕ × ℕ) (value : V), Made (alone kept value) :=
    fun kept value => ⟨_, refines_alone kept value⟩
  have hback := equal_symm (decimal (15, 1)).2 (decimal (150, 2)).2 decimal_equal_scaled
  have hhash : keyHash amounts _ (decimal (15, 1)) = keyHash _ _ (decimal (150, 2)) :=
    hash_of_equal (decimal (15, 1)).2 (decimal (150, 2)).2 decimal_equal_scaled
  have hword : ∀ kept : ℕ × ℕ, ∀ entry ∈ (alone kept (.word 5#64 : Val (ℕ × ℕ))).entries,
      HasType amounts (.prim .int) entry.value := by
    intro kept entry hentry
    have hmem := List.mem_map_of_mem (f := bare) hentry
    rw [← entriesOf, entriesOf_alone, List.mem_singleton] at hmem
    rw [show entry.value = .word 5#64 from congrArg Entry.value hmem]
    exact .int 5#64
  refine ⟨h.1 _ _ _ (hlist (15, 1)) (hlist (150, 2)) ?_,
    h.2.1 _ _ _ (hmade (15, 1) 0) (hmade (150, 2) 0) ?_,
    h.2.2 _ _ _ _ (hmade (15, 1) _) (hmade (150, 2) _) (hword (15, 1)) (hword (150, 2)) ?_⟩
  · simp [equal_list, decimal_equal_scaled]
  · rw [setEqual_eq (hmade (15, 1) 0) (hmade (150, 2) 0), entriesOf_alone, entriesOf_alone]
    simp only [Equality.setEqual, List.length_cons, List.length_nil, decide_true, Bool.true_and,
      List.all_cons, List.all_nil, List.any_cons, List.any_nil, hhash, Bool.or_false, Bool.and_true]
    exact hback
  · rw [mapEqual_eq (hmade (15, 1) _) (hmade (150, 2) _), entriesOf_alone, entriesOf_alone]
    simp only [Equality.mapEqual, List.length_cons, List.length_nil, decide_true, Bool.true_and,
      List.all_cons, List.all_nil, hhash, Bool.and_true]
    rw [List.find?_cons_of_pos]
    · exact (equal_int amounts (.word 5#64) (.word 5#64)).trans (by decide)
    · exact Bool.and_eq_true_iff.mpr ⟨decide_eq_true rfl, hback⟩

end Decimals

end SoutherNative.ValueCollection
