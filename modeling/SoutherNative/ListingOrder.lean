import Mathlib
import SoutherNative.HashTrieSound
import SoutherNative.Collection
import SoutherNative.SetAlgebra

set_option autoImplicit false

/-!
# The order a trie lists its entries in

A node below a node may hold one entry, and an entry may stand in a node of its own that another
trie of the same keys has none of. Whatever nodes its entries are held by, a trie lists them by the
digits of their hashes, the lowest first, which is an order of the hashes and of no trie.
-/
namespace SoutherNative.HashTrie
open Bitmap

variable {K V : Type}

def Before (p q : BitVec 64) : Prop :=
  ∃ level, Agrees (level * BITS) p q ∧ digit p (level * BITS) < digit q (level * BITS)

theorem below_level {level level' : ℕ} (h : level < level') :
    level * BITS + BITS ≤ level' * BITS := by
  rw [← Nat.succ_mul]
  exact Nat.mul_le_mul_right BITS h

theorem Before.asymm {p q : BitVec 64} (h : Before p q) : ¬Before q p := by
  rintro ⟨level', hagrees', hlt'⟩
  obtain ⟨level, hagrees, hlt⟩ := h
  rcases lt_trichotomy level level' with hless | hsame | hmore
  · have hdigit := (hagrees'.mono (below_level hless)).digit_eq
    omega
  · subst hsame
    omega
  · have hdigit := (hagrees.mono (below_level hmore)).digit_eq
    omega

def Clear (equal : K → K → Bool) (es : List (Entry K V)) : Prop :=
  ∀ e ∈ es, ∀ f ∈ es, equal e.key f.key = false → e.hash ≠ f.hash

section Ordered

variable {hash : K → BitVec 64} {equal : K → K → Bool}

theorem Clear.mono {es fs : List (Entry K V)} (h : Clear equal fs) (hsub : ∀ e ∈ es, e ∈ fs) :
    Clear equal es :=
  fun e he f hf => h e (hsub e he) f (hsub f hf)

mutual

/-- The entries of a word are listed in the order of their hashes. -/
theorem Sound.ordered {level : ℕ} {p : BitVec 64} (w : Word K V)
    (h : Sound hash equal (level * BITS) p w) (hclear : Clear equal (gather w)) :
    (gather w).Pairwise fun e f => Before e.hash f.hash := by
  cases w with
  | entry e => exact List.pairwise_singleton _ e
  | node header words =>
    rw [h.gather_eq] at hclear ⊢
    cases h with
    | sideBySide hdeep _ _ hes hunequal =>
      rw [flatMap_gather_entries] at hclear ⊢
      -- the hashes agree in every bit, so no two entries stand side by side
      refine hunequal.imp_of_mem ?_
      intro e f he hf hne
      exact absurd (((hes e he).2.symm.trans (hes f hf).2).eq hdeep) (hclear e he f hf hne)
    | branch _ _ _ haligned => exact Aligned.ordered words haligned (digits_sorted header) hclear

theorem Aligned.ordered {level : ℕ} {p : BitVec 64} {ds : List ℕ} (ws : List (Word K V))
    (h : Aligned hash equal (level * BITS) p ds ws) (hsorted : ds.Pairwise (· < ·))
    (hclear : Clear equal (ws.flatMap gather)) :
    (ws.flatMap gather).Pairwise fun e f => Before e.hash f.hash := by
  cases ws with
  | nil => exact List.Pairwise.nil
  | cons w ws =>
    cases h with
    | @cons _ d _ q ds _ _ hagrees hdigit hw hws =>
      obtain ⟨hfirst, hrest⟩ := List.pairwise_cons.mp hsorted
      rw [List.flatMap_cons] at hclear ⊢
      have hbelow : Sound hash equal ((level + 1) * BITS) q w := by
        rw [Nat.succ_mul]
        exact hw
      refine List.pairwise_append.mpr ⟨?_, ?_, ?_⟩
      · exact Sound.ordered w hbelow
          (hclear.mono fun e he => List.mem_append_left _ he)
      · exact Aligned.ordered ws hws hrest
          (hclear.mono fun e he => List.mem_append_right _ he)
      · intro e he f hf
        obtain ⟨-, hq⟩ := Sound.entries w hw e he
        obtain ⟨-, hp, hmem⟩ := Aligned.entries ws hws f hf
        refine ⟨level, ?_, ?_⟩
        · exact (hq.mono (Nat.le_add_right _ _)).symm.trans (hagrees.symm.trans hp)
        · rw [← hq.digit_eq, hdigit]
          exact hfirst _ hmem

end

end Ordered

end SoutherNative.HashTrie

namespace SoutherNative.Collection
open HashTrie AssociationList Simulation

variable {K V : Type}

def SameKeys (equal : K → K → Bool) (a b : Trie K V) : Prop :=
  (∀ e ∈ a.entries, ∃ f ∈ b.entries, equal e.key f.key = true) ∧
    ∀ f ∈ b.entries, ∃ e ∈ a.entries, equal f.key e.key = true

def Unclashing (hash : K → BitVec 64) (equal : K → K → Bool) (trie : Trie K V) : Prop :=
  ∀ e ∈ trie.entries, ∀ f ∈ trie.entries,
    equal e.key f.key = false → hash e.key ≠ hash f.key

section Listing

variable {hash : K → BitVec 64} {equal : K → K → Bool}

theorem Refines.ordered {trie : Trie K V} {l : List (K × V)} (h : Refines hash equal trie l)
    (hclash : Unclashing hash equal trie) :
    trie.entries.Pairwise fun e f => Before e.hash f.hash := by
  have hclear : Clear equal trie.entries := by
    intro e he f hf hne
    rw [h.hash_eq he, h.hash_eq hf]
    exact hclash e he f hf hne
  cases hroot : trie.root with
  | none => simp [Trie.entries, hroot]
  | some node =>
    have hs := h.sound node hroot 0#64
    rw [Trie.entries_eq hroot] at hclear ⊢
    rw [← Nat.zero_mul BITS] at hs
    exact Sound.ordered node.word hs hclear

variable (hequal : Equivalence (fun a b => equal a b = true))
  (hh : ∀ a b, equal a b = true → hash a = hash b)

include hequal hh

theorem Unclashing.of_sameKeys {a b : Trie K V} (hclash : Unclashing hash equal a)
    (hsame : SameKeys equal a b) : Unclashing hash equal b := by
  intro e he f hf hne hhash
  obtain ⟨e', he', hee⟩ := hsame.2 e he
  obtain ⟨f', hf', hff⟩ := hsame.2 f hf
  apply hclash e' he' f' hf'
  · apply Bool.eq_false_iff.mpr
    intro heq
    rw [hequal.trans hee (hequal.trans heq (hequal.symm hff))] at hne
    cases hne
  · rw [← hh _ _ hee, ← hh _ _ hff, hhash]

omit hequal in
theorem hashes_subset {a b : Trie K V} {l m : List (K × V)} (ha : Refines hash equal a l)
    (hb : Refines hash equal b m)
    (hsame : ∀ e ∈ a.entries, ∃ f ∈ b.entries, equal e.key f.key = true) :
    ∀ h ∈ a.entries.map Entry.hash, h ∈ b.entries.map Entry.hash := by
  intro h hmem
  obtain ⟨e, he, rfl⟩ := List.mem_map.mp hmem
  obtain ⟨f, hf, heq⟩ := hsame e he
  refine List.mem_map.mpr ⟨f, hf, ?_⟩
  rw [ha.hash_eq he, hb.hash_eq hf, hh _ _ heq]

omit hequal hh in
theorem nodup_of_ordered {es : List (Entry K V)}
    (h : es.Pairwise fun e f => Before e.hash f.hash) : (es.map Entry.hash).Nodup := by
  refine List.pairwise_map.mpr (h.imp ?_)
  intro e f hbefore heq
  rw [heq] at hbefore
  exact hbefore.asymm hbefore

theorem hashes_alike {a b : Trie K V} {l m : List (K × V)} (ha : Refines hash equal a l)
    (hb : Refines hash equal b m) (hsame : SameKeys equal a b)
    (hclash : Unclashing hash equal a) :
    a.entries.map Entry.hash = b.entries.map Entry.hash := by
  have hordera := ha.ordered hclash
  have horderb := hb.ordered (hclash.of_sameKeys hequal hh hsame)
  have hperm : (a.entries.map Entry.hash).Perm (b.entries.map Entry.hash) := by
    apply (List.perm_ext_iff_of_nodup (nodup_of_ordered hordera) (nodup_of_ordered horderb)).mpr
    intro h
    exact ⟨hashes_subset hh ha hb hsame.1 h, hashes_subset hh hb ha hsame.2 h⟩
  refine @List.Perm.eq_of_pairwise _ Before _ _ ?_ ?_ ?_ hperm
  · intro p q _ _ hpq hqp
    exact absurd hqp hpq.asymm
  · exact List.pairwise_map.mpr hordera
  · exact List.pairwise_map.mpr horderb

theorem listed_alike {a b : Trie K V} {l m : List (K × V)} (ha : Refines hash equal a l)
    (hb : Refines hash equal b m) (hsame : SameKeys equal a b)
    (hclash : Unclashing hash equal a) :
    List.Forall₂ (fun e f => equal e.key f.key = true) a.entries b.entries := by
  have hhashes := hashes_alike hequal hh ha hb hsame hclash
  have hnodup := nodup_of_ordered (hb.ordered (hclash.of_sameKeys hequal hh hsame))
  apply List.forall₂_iff_get.mpr
  constructor
  · simpa using congrArg List.length hhashes
  · intro i hi hi'
    -- the key equal to one's is under the hash in its place, which no other entry has
    obtain ⟨f, hf, heq⟩ := hsame.1 (a.entries.get ⟨i, hi⟩) (List.get_mem _ _)
    have hplace : (a.entries.get ⟨i, hi⟩).hash = (b.entries.get ⟨i, hi'⟩).hash := by
      have hget := congrArg (fun hashes => hashes[i]?) hhashes
      simpa [List.getElem?_map, List.getElem?_eq_getElem hi, List.getElem?_eq_getElem hi']
        using hget
    have hhash : f.hash = (b.entries.get ⟨i, hi'⟩).hash := by
      rw [← hplace, hb.hash_eq hf, ← hh _ _ heq, ha.hash_eq (List.get_mem _ _)]
    rw [List.inj_on_of_nodup_map hnodup hf (List.get_mem _ _) hhash] at heq
    exact heq

theorem mapRun_refines {steps : List (MapStep K V)} {map : Map K V}
    (h : mapRun hash equal steps = some map) : ∃ l, Refines hash equal map l := by
  have hstart : Kept hash equal (mapEmpty : Map K V) [] := ⟨refines_empty, Nat.zero_le _⟩
  have hrun := together_foldlM (mapStep_together hequal hh) hstart steps
  have hmap : steps.foldlM (mapStep hash equal) mapEmpty = some map := h
  rw [hmap] at hrun
  cases hlist : steps.foldlM (listMapStep equal) [] with
  | none =>
    rw [hlist] at hrun
    exact hrun.elim
  | some l =>
    rw [hlist] at hrun
    exact ⟨l, hrun.1⟩

end Listing

/-- The order a map or a set lists what it holds in is one of what it holds, whatever run it is
reached by. -/
theorem order_is_of_the_keys {hash : K → BitVec 64} {equal : K → K → Bool}
    (hequal : Equivalence (fun a b => equal a b = true))
    (hh : ∀ a b, equal a b = true → hash a = hash b) :
    (∀ {steps steps' : List (MapStep K V)} {a b : Map K V}, mapRun hash equal steps = some a →
      mapRun hash equal steps' = some b → SameKeys equal a b → Unclashing hash equal a →
      List.Forall₂ (fun e f => equal e.key f.key = true) a.entries b.entries) ∧
    ∀ {a b : Set K}, Made equal hash a → Made equal hash b → SameKeys equal a b →
      Unclashing hash equal a →
      List.Forall₂ (fun e f => equal e.key f.key = true) a.entries b.entries := by
  constructor
  · intro steps steps' a b ha hb hsame hclash
    obtain ⟨l, hl⟩ := mapRun_refines hequal hh ha
    obtain ⟨m, hm⟩ := mapRun_refines hequal hh hb
    exact listed_alike hequal hh hl hm hsame hclash
  · intro a b ha hb hsame hclash
    exact listed_alike hequal hh (ha.kept hequal hh).1 (hb.kept hequal hh).1 hsame hclash

/-- A trie whose entry stands in a node of its own, where a removal left it, lists it as one that
never had another. -/
theorem order_after_removal : ∃ a b : Map (BitVec 64) ℕ,
    mapRun id (· == ·) [.insert 0#64 4, .insert 32#64 5, .remove 32#64, .insert 1#64 6] = some a ∧
      mapRun id (· == ·) [.insert 1#64 7, .insert 0#64 8] = some b ∧
      List.Forall₂ (fun e f => (e.key == f.key) = true) a.entries b.entries := by
  have he : Equivalence (fun a b : BitVec 64 => (a == b) = true) :=
    ⟨fun a => by simp, fun h => by simp_all, fun h k => by simp_all⟩
  have hh : ∀ a b : BitVec 64, (a == b) = true → id a = id b := fun a b h => by simpa using h
  have hrun := fun steps => @mapRun_answers (BitVec 64) ℕ id (· == ·) he hh steps
  have hone := hrun [.insert 0#64 4, .insert 32#64 5, .remove 32#64, .insert 1#64 6]
  have hother := hrun [.insert 1#64 7, .insert 0#64 8]
  have hlist : listMapRun (fun a b : BitVec 64 => a == b)
      [.insert 0#64 4, .insert 32#64 5, .remove 32#64, .insert 1#64 6] =
        some [(0#64, 4), (1#64, 6)] := rfl
  have hlist' : listMapRun (fun a b : BitVec 64 => a == b) [.insert 1#64 7, .insert 0#64 8] =
      some [(1#64, 7), (0#64, 8)] := rfl
  rw [hlist] at hone
  rw [hlist'] at hother
  cases ha : mapRun id (fun a b : BitVec 64 => a == b)
      [.insert 0#64 4, .insert 32#64 5, .remove 32#64, .insert 1#64 6] with
  | none => simp [ha, Together] at hone
  | some a =>
    cases hb : mapRun id (fun a b : BitVec 64 => a == b) [.insert 1#64 7, .insert 0#64 8] with
    | none => simp [hb, Together] at hother
    | some b =>
      rw [ha] at hone
      rw [hb] at hother
      have hkeys : ∀ key, key ∈ a.entries.map Entry.key ↔ key ∈ b.entries.map Entry.key := by
        intro key
        have hmem := hone.keys.mem_iff (a := key)
        have hmem' := hother.keys.mem_iff (a := key)
        rw [mapKeys] at hmem hmem'
        rw [hmem, hmem']
        simp [or_comm]
      have hsame : SameKeys (fun a b : BitVec 64 => a == b) a b := by
        constructor
        · intro e hmem
          obtain ⟨f, hf, heq⟩ :=
            List.mem_map.mp ((hkeys e.key).mp (List.mem_map.mpr ⟨e, hmem, rfl⟩))
          exact ⟨f, hf, by simp [heq]⟩
        · intro f hmem
          obtain ⟨e, he', heq⟩ :=
            List.mem_map.mp ((hkeys f.key).mpr (List.mem_map.mpr ⟨f, hmem, rfl⟩))
          exact ⟨e, he', by simp [heq]⟩
      have hclash : Unclashing id (fun a b : BitVec 64 => a == b) a := by
        intro e _ f _ hne
        simpa using hne
      exact ⟨a, b, rfl, rfl, (order_is_of_the_keys he hh).1 ha hb hsame hclash⟩

end SoutherNative.Collection
