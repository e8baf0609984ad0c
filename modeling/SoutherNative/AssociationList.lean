import Mathlib

set_option autoImplicit false

/-!
# Association lists up to an equivalence of keys

A list of keys and values no two keys of which are equal, under an equality that need not be
identity: what a map is, whatever it keeps its entries in. An insertion under an equal key keeps the
key there. The order of the list is nobody's, so what is held of it is held up to permutation.
-/
namespace SoutherNative.AssociationList

variable {K V : Type} (equal : K → K → Bool)

def Distinct (l : List (K × V)) : Prop := l.Pairwise (fun a b => equal a.1 b.1 = false)

def lookup (l : List (K × V)) (key : K) : Option V :=
  (l.find? (fun p => equal p.1 key)).map Prod.snd

def holds (l : List (K × V)) (key : K) : Bool := l.any (fun p => equal p.1 key)

/-- The list with `value` under `key`, where no equal key is there. -/
def add (l : List (K × V)) (key : K) (value : V) : List (K × V) :=
  if holds equal l key then l else l ++ [(key, value)]

/-- The list with `value` under `key`, or under the key there where it is equal. -/
def replace (l : List (K × V)) (key : K) (value : V) : List (K × V) :=
  if holds equal l key then l.map (fun p => if equal p.1 key then (p.1, value) else p)
  else l ++ [(key, value)]

def remove (l : List (K × V)) (key : K) : List (K × V) := l.filter (fun p => !equal p.1 key)

variable {equal}

theorem holds_eq_false {l : List (K × V)} {key : K} :
    holds equal l key = false ↔ ∀ p ∈ l, equal p.1 key = false := by
  simp [holds]

theorem holds_of_mem {l : List (K × V)} {p : K × V} {key : K} (hp : p ∈ l)
    (heq : equal p.1 key = true) : holds equal l key = true :=
  List.any_eq_true.mpr ⟨p, hp, heq⟩

theorem holds_perm {l m : List (K × V)} (h : l.Perm m) (key : K) :
    holds equal l key = holds equal m key := h.any_eq

section Equivalence

variable (he : Equivalence (fun a b => equal a b = true))

include he

theorem equal_comm (a b : K) : equal a b = equal b a := by
  cases hab : equal a b with
  | true => exact (he.symm hab).symm
  | false =>
    cases hba : equal b a with
    | true => exact absurd (he.symm hba) (by simp [hab])
    | false => rfl

theorem distinct_perm {l m : List (K × V)} (h : l.Perm m) (hl : Distinct equal l) :
    Distinct equal m := by
  refine (h.pairwise_iff ?_).mp hl
  intro a b hab
  rwa [equal_comm he]

theorem others_ne {front back : List (K × V)} {p : K × V} {key : K}
    (hd : Distinct equal (front ++ p :: back)) (hp : equal p.1 key = true) :
    ∀ q ∈ front ++ back, equal q.1 key = false := by
  intro q hq
  have hperm : (front ++ p :: back).Perm (p :: (front ++ back)) := List.perm_middle
  have hcons := distinct_perm he hperm hd
  have hne := (List.pairwise_cons.mp hcons).1 q hq
  by_contra hkey
  have : equal p.1 q.1 = true := he.trans hp (he.symm (by simpa using hkey))
  simp [this] at hne

/-- Looking a key up does not ask what order the list is in. -/
theorem lookup_of_mem {l : List (K × V)} {p : K × V} {key : K} (hd : Distinct equal l)
    (hp : p ∈ l) (heq : equal p.1 key = true) : lookup equal l key = some p.2 := by
  obtain ⟨front, back, rfl⟩ := List.append_of_mem hp
  have hne := others_ne he hd heq
  have hfront : front.find? (fun q => equal q.1 key) = none := by
    rw [List.find?_eq_none]
    intro q hq
    simp [hne q (by simp [hq])]
  simp [lookup, List.find?_append, hfront, heq]

theorem replace_middle {front back : List (K × V)} {p : K × V} {key : K} {value : V}
    (hd : Distinct equal (front ++ p :: back)) (heq : equal p.1 key = true) :
    replace equal (front ++ p :: back) key value = front ++ (p.1, value) :: back := by
  have hne := others_ne he hd heq
  have hsame : ∀ xs : List (K × V), (∀ q ∈ xs, equal q.1 key = false) →
      xs.map (fun q => if equal q.1 key then (q.1, value) else q) = xs := by
    intro xs hxs
    conv_rhs => rw [← List.map_id xs]
    apply List.map_congr_left
    intro q hq
    simp [hxs q hq]
  rw [replace, if_pos (holds_of_mem (by simp) heq), List.map_append, List.map_cons,
    hsame front (fun q hq => hne q (by simp [hq])), hsame back (fun q hq => hne q (by simp [hq])),
    if_pos heq]

theorem remove_middle {front back : List (K × V)} {p : K × V} {key : K}
    (hd : Distinct equal (front ++ p :: back)) (heq : equal p.1 key = true) :
    remove equal (front ++ p :: back) key = front ++ back := by
  have hne := others_ne he hd heq
  have hsame : ∀ xs : List (K × V), (∀ q ∈ xs, equal q.1 key = false) →
      xs.filter (fun q => !equal q.1 key) = xs := by
    intro xs hxs
    apply List.filter_eq_self.mpr
    intro q hq
    simp [hxs q hq]
  rw [remove, List.filter_append, List.filter_cons, heq,
    hsame front (fun q hq => hne q (by simp [hq])), hsame back (fun q hq => hne q (by simp [hq]))]
  rfl

end Equivalence

theorem distinct_append {l : List (K × V)} {key : K} {value : V} (hd : Distinct equal l)
    (hn : holds equal l key = false) : Distinct equal (l ++ [(key, value)]) := by
  refine List.pairwise_append.mpr ⟨hd, List.pairwise_singleton _ _, ?_⟩
  intro p hp q hq
  rw [List.mem_singleton.mp hq]
  exact holds_eq_false.mp hn p hp

/-- Distinct keys put in one after another stand in the order they were put in. -/
theorem foldl_distinct (equal : K → K → Bool) (put : List (K × V) → K × V → List (K × V))
    (hput : ∀ l p, holds equal l p.1 = false → put l p = l ++ [p]) {front back : List (K × V)}
    (hd : Distinct equal (front ++ back)) : back.foldl put front = front ++ back := by
  induction back generalizing front with
  | nil => rw [List.foldl_nil, List.append_nil]
  | cons p back ih =>
    have hholds : holds equal front p.1 = false :=
      holds_eq_false.mpr fun q hq => (List.pairwise_append.mp hd).2.2 q hq p List.mem_cons_self
    rw [List.append_cons] at hd
    rw [List.foldl_cons, hput front p hholds, ih hd, ← List.append_cons]

theorem distinct_replace {l : List (K × V)} {key : K} {value : V} (hd : Distinct equal l) :
    Distinct equal (replace equal l key value) := by
  unfold replace
  split_ifs with hh
  · refine List.pairwise_map.mpr (hd.imp ?_)
    intro a b hab
    split_ifs <;> exact hab
  · exact distinct_append hd (by simpa using hh)

theorem distinct_add {l : List (K × V)} {key : K} {value : V} (hd : Distinct equal l) :
    Distinct equal (add equal l key value) := by
  unfold add
  split_ifs with hh
  · exact hd
  · exact distinct_append hd (by simpa using hh)

theorem distinct_remove {l : List (K × V)} {key : K} (hd : Distinct equal l) :
    Distinct equal (remove equal l key) := hd.filter _

theorem remove_of_not_holds {l : List (K × V)} {key : K} (hn : holds equal l key = false) :
    remove equal l key = l := by
  apply List.filter_eq_self.mpr
  intro p hp
  simp [holds_eq_false.mp hn p hp]

theorem length_replace_le (l : List (K × V)) (key : K) (value : V) :
    (replace equal l key value).length ≤ l.length + 1 := by
  unfold replace
  split_ifs <;> simp

theorem length_add_le (l : List (K × V)) (key : K) (value : V) :
    (add equal l key value).length ≤ l.length + 1 := by
  unfold add
  split_ifs <;> simp

theorem length_remove_le (l : List (K × V)) (key : K) :
    (remove equal l key).length ≤ l.length := List.length_filter_le _ _

theorem replace_perm {l m : List (K × V)} (h : l.Perm m) (key : K) (value : V) :
    (replace equal l key value).Perm (replace equal m key value) := by
  unfold replace
  rw [holds_perm h]
  split_ifs
  · exact h.map _
  · exact h.append_right _

theorem remove_perm {l m : List (K × V)} (h : l.Perm m) (key : K) :
    (remove equal l key).Perm (remove equal m key) := h.filter _

end SoutherNative.AssociationList
