import SoutherNative.HashTrieSound
import SoutherNative.AssociationList
import SoutherNative.Simulation

set_option autoImplicit false

/-!
# Sets and maps

The functions the runtime's `collection` answers generated code with, over the trie. A set is a map
whose values are nought. `Refines` ties a trie to the association list it stands for, and every run
of the functions keeps it.
-/
namespace SoutherNative.Collection
open HashTrie AssociationList Simulation

variable {K V : Type}

def HOLDS : ℕ := 2 ^ 31 - 1

/-- A list of the runtime: none holds more than this many. -/
structure HeldList (α : Type) where
  elements : List α
  held : elements.length ≤ HOLDS

def held (trie : Trie K V) : Option (Trie K V) := if trie.size ≤ HOLDS then some trie else none

section Functions

variable (hash : K → BitVec 64) (equal : K → K → Bool)

abbrev Set (K : Type) := Trie K Int64

abbrev Map (K V : Type) := Trie K V

def member (element : K) : Entry K Int64 := ⟨hash element, element, 0⟩

def setEmpty : Set K := EMPTY

def setInsert (set : Set K) (element : K) : Option (Set K) :=
  let with' := set.with equal (member hash element) .keep
  if with'.size = set.size then some set else held with'

def setRemove (set : Set K) (element : K) : Set K :=
  let without' := set.without equal (hash element) element
  if without'.size = set.size then set else without'

def setContains (set : Set K) (element : K) : Bool :=
  (set.find equal (hash element) element).isSome

def setSize (set : Set K) : ℕ := set.size

def setToList (set : Set K) : List K := set.entries.map Entry.key

def setFromList (list : HeldList K) : Set K :=
  list.elements.foldl (fun set element => set.with equal (member hash element) .keep) EMPTY

def mapEmpty : Map K V := EMPTY

def mapGet (map : Map K V) (key : K) : Option V :=
  (map.find equal (hash key) key).map Entry.value

def mapContainsKey (map : Map K V) (key : K) : Bool := (map.find equal (hash key) key).isSome

def mapKeys (map : Map K V) : List K := map.entries.map Entry.key

def mapValues (map : Map K V) : List V := map.entries.map Entry.value

def mapInsert (map : Map K V) (key : K) (value : V) : Option (Map K V) :=
  held (map.with equal ⟨hash key, key, value⟩ .takeValue)

def mapRemove (map : Map K V) (key : K) : Map K V :=
  let without' := map.without equal (hash key) key
  if without'.size = map.size then map else without'

def mapSize (map : Map K V) : ℕ := map.size

def mapToList (map : Map K V) : List (K × V) := map.entries.map (fun e => (e.key, e.value))

def mapFromList (list : HeldList (K × V)) : Map K V :=
  list.elements.foldl
    (fun map pair => map.with equal ⟨hash pair.1, pair.1, pair.2⟩ .takeValue) EMPTY

def setEqual (a b : Set K) : Bool :=
  a.size = b.size && a.entries.all (fun entry => (b.find equal entry.hash entry.key).isSome)

def setHash (set : Set K) : BitVec 64 :=
  combine (BitVec.ofNat 64 set.size)
    (set.entries.foldl (fun sum entry => sum + mix entry.hash) 0#64)

def mapEqual (values : V → V → Bool) (a b : Map K V) : Bool :=
  a.size = b.size && a.entries.all (fun entry =>
    match b.find equal entry.hash entry.key with
    | some there => values entry.value there.value
    | none => false)

def mapHash (values : V → BitVec 64) (map : Map K V) : BitVec 64 :=
  combine (BitVec.ofNat 64 map.size)
    (map.entries.foldl (fun sum entry => sum + combine entry.hash (values entry.value)) 0#64)

end Functions

def listed (es : List (Entry K V)) : List (K × V) := es.map (fun e => (e.key, e.value))

structure Refines (hash : K → BitVec 64) (equal : K → K → Bool) (trie : Trie K V)
    (l : List (K × V)) : Prop where
  sound : ∀ node ∈ trie.root, ∀ p, Sound hash equal 0 p node.word
  perm : (listed trie.entries).Perm l
  size : trie.size = l.length
  distinct : Distinct equal l

section Refinement

variable {hash : K → BitVec 64} {equal : K → K → Bool}

theorem agrees_zero (p q : BitVec 64) : Agrees 0 p q := fun _ hi => absurd hi (Nat.not_lt_zero _)

theorem refines_empty : Refines hash equal (EMPTY : Trie K V) [] := by
  refine ⟨?_, ?_, rfl, List.Pairwise.nil⟩
  · intro node hnode
    simp [EMPTY] at hnode
  · simp [listed, Trie.entries, EMPTY]

theorem holds_listed {es : List (Entry K V)} {l : List (K × V)} {key : K}
    (hperm : (listed es).Perm l) (h : ∀ e ∈ es, equal e.key key = false) :
    holds equal l key = false := by
  rw [← holds_perm hperm, holds_eq_false]
  intro p hp
  obtain ⟨e, he, rfl⟩ := List.mem_map.mp hp
  exact h e he

theorem Trie.entries_eq {trie : Trie K V} {node : Node K V} (h : trie.root = some node) :
    trie.entries = gather node.word := by
  simp [Trie.entries, h]

/-- What the list becomes where the entry under an equal key is as `onEqual` says. -/
def put (equal : K → K → Bool) (onEqual : OnEqual) (l : List (K × V)) (key : K) (value : V) :
    List (K × V) :=
  match onEqual with
  | .keep => add equal l key value
  | .takeValue => replace equal l key value

theorem put_of_not_holds {onEqual : OnEqual} {l : List (K × V)} {key : K} {value : V}
    (h : holds equal l key = false) :
    Collection.put equal onEqual l key value = l ++ [(key, value)] := by
  cases onEqual <;> simp [Collection.put, add, replace, h]

theorem distinct_put {l : List (K × V)} (hd : Distinct equal l) (onEqual : OnEqual) (key : K)
    (value : V) : Distinct equal (Collection.put equal onEqual l key value) := by
  cases onEqual with
  | keep => exact distinct_add hd
  | takeValue => exact distinct_replace hd

theorem listed_insert {front back : List (Entry K V)} {e : Entry K V} {l : List (K × V)}
    (h : (listed (front ++ back)).Perm l) :
    (listed (front ++ e :: back)).Perm (l ++ [(e.key, e.value)]) := by
  have hmiddle : (listed (front ++ e :: back)).Perm ((e.key, e.value) :: listed (front ++ back)) := by
    simp [listed]
  exact hmiddle.trans ((h.cons _).trans (List.perm_append_singleton _ _).symm)

theorem holds_of_listed {es : List (Entry K V)} {l : List (K × V)} {e : Entry K V} {key : K}
    (hperm : (listed es).Perm l) (he : e ∈ es) (heq : equal e.key key = true) :
    holds equal l key = true := by
  rw [← holds_perm hperm]
  exact holds_of_mem (List.mem_map.mpr ⟨e, he, rfl⟩) heq

def rooted (trie : Trie K V) : Put K V → Trie K V
  | .kept => trie
  | .replaced root => ⟨trie.size, some root⟩
  | .added root => ⟨trie.size + 1, some root⟩

theorem sound_root {h : BitVec 64} {node : Node K V} (hs : Sound hash equal 0 h node.word) :
    ∀ root ∈ some node, ∀ p, Sound hash equal 0 p root.word := by
  intro root hroot p
  rw [Option.mem_some_iff.mp hroot] at hs
  exact hs.congr (agrees_zero _ _)

theorem refines_rooted {trie : Trie K V} {l : List (K × V)} {entry : Entry K V}
    {onEqual : OnEqual} {put : Put K V} (he : Equivalence (fun a b => equal a b = true))
    (h : Refines hash equal trie l)
    (hput : PutOutcome hash equal onEqual 0 entry trie.entries put) :
    Refines hash equal (rooted trie put) (Collection.put equal onEqual l entry.key entry.value) := by
  have hdistinct := distinct_put h.distinct onEqual entry.key entry.value
  cases hput with
  | @kept there hkeep hmem heq =>
    subst hkeep
    have hsame : Collection.put equal .keep l entry.key entry.value = l := by
      simp [Collection.put, add, holds_of_listed h.perm hmem heq]
    rw [hsame]
    exact h
  | @replaced node front back there htake hes heq hnode hs =>
    subst htake
    have hperm := h.perm
    rw [hes] at hperm
    have hholds : holds equal l entry.key = true := holds_of_listed hperm (by simp) heq
    have hnew : (listed (front ++ { there with value := entry.value } :: back)).Perm
        (replace equal l entry.key entry.value) := by
      have hreplace : (replace equal _ entry.key entry.value).Perm _ :=
        replace_perm hperm entry.key entry.value
      have hmiddle : listed (front ++ there :: back) =
          listed front ++ (there.key, there.value) :: listed back := by simp [listed]
      rw [hmiddle, replace_middle he (hmiddle ▸ distinct_perm he hperm.symm h.distinct) heq]
        at hreplace
      simpa [listed] using hreplace
    refine ⟨sound_root hs, ?_, ?_, hdistinct⟩
    · rw [rooted, Trie.entries_eq rfl, hnode]
      exact hnew
    · simp [rooted, h.size, Collection.put, replace, hholds]
  | @added node front back hnone hes hnode hs =>
    have hholds := holds_listed h.perm hnone
    rw [put_of_not_holds hholds]
    rw [put_of_not_holds hholds] at hdistinct
    refine ⟨sound_root hs, ?_, ?_, hdistinct⟩
    · rw [rooted, Trie.entries_eq rfl, hnode]
      exact listed_insert (hes ▸ h.perm)
    · simp [rooted, h.size]

theorem length_entries {trie : Trie K V} {l : List (K × V)} (h : Refines hash equal trie l) :
    trie.entries.length = l.length := by
  simpa [listed] using h.perm.length_eq

/-- Putting an entry in is putting it into the list. -/
theorem Refines.with {trie : Trie K V} {l : List (K × V)}
    (he : Equivalence (fun a b => equal a b = true))
    (hh : ∀ a b, equal a b = true → hash a = hash b) (h : Refines hash equal trie l)
    (onEqual : OnEqual) (key : K) (value : V) (hlen : l.length + 1 < 2 ^ 63) :
    Refines hash equal (trie.with equal ⟨hash key, key, value⟩ onEqual)
      (Collection.put equal onEqual l key value) := by
  have hentries := length_entries h
  unfold Trie.with
  cases hroot : trie.root with
  | none =>
    have hempty : trie.entries = [] := by simp [Trie.entries, hroot]
    have htop : 0 < DEEPEST := by decide
    have hs : Sound hash equal 0 (hash key)
        (.node (bitOf (hash key) 0) [.entry ⟨hash key, key, value⟩]) :=
      @Sound.single K V hash equal ⟨hash key, key, value⟩ 0 _ _ htop rfl (.entry rfl (.refl _ _))
    have hput : PutOutcome hash equal onEqual 0 ⟨hash key, key, value⟩ trie.entries
        (.added ⟨bitOf (hash key) 0, [.entry ⟨hash key, key, value⟩]⟩) := by
      refine @PutOutcome.added K V hash equal onEqual 0 _ _ _ [] [] ?_ hempty ?_ hs
      · simp [hempty]
      · rw [Node.word, hs.gather_eq]
        rfl
    exact refines_rooted he h hput
  | some node =>
    have hs := h.sound node hroot (hash key)
    have hgather := Trie.entries_eq hroot
    have hput : PutOutcome hash equal onEqual 0 ⟨hash key, key, value⟩ trie.entries
        (HashTrie.put equal onEqual node.header node.words 0 ⟨hash key, key, value⟩) := by
      rw [hgather]
      exact put_outcome hh rfl hs (.refl _ _) (by rw [← Node.word, ← hgather]; omega)
    exact refines_rooted he h hput

/-- The trie with one entry fewer, where that entry's key is equal to the one removed. -/
theorem refines_removed {trie : Trie K V} {l : List (K × V)} {front back : List (Entry K V)}
    {there : Entry K V} {root : Option (Node K V)} {key : K}
    (he : Equivalence (fun a b => equal a b = true)) (h : Refines hash equal trie l)
    (hes : trie.entries = front ++ there :: back) (heq : equal there.key key = true)
    (hroot : (⟨trie.size - 1, root⟩ : Trie K V).entries = front ++ back)
    (hs : ∀ node ∈ root, ∀ p, Sound hash equal 0 p node.word) :
    Refines hash equal ⟨trie.size - 1, root⟩ (AssociationList.remove equal l key) := by
  have hperm := h.perm
  have hmiddle : listed (front ++ there :: back) =
      listed front ++ (there.key, there.value) :: listed back := by simp [listed]
  rw [hes, hmiddle] at hperm
  have hremove : (AssociationList.remove equal _ key).Perm _ := remove_perm hperm key
  rw [remove_middle he (distinct_perm he hperm.symm h.distinct) heq] at hremove
  refine ⟨hs, ?_, ?_, distinct_remove h.distinct⟩
  · rw [hroot]
    simpa [listed] using hremove
  · have hlen := hperm.length_eq
    have hlen' := hremove.length_eq
    simp only [List.length_append, List.length_cons] at hlen hlen'
    simp only [h.size]
    omega

/-- Taking a key out is removing it from the list, and leaves the trie where it holds no such
key. -/
theorem Refines.without {trie : Trie K V} {l : List (K × V)}
    (he : Equivalence (fun a b => equal a b = true))
    (hh : ∀ a b, equal a b = true → hash a = hash b) (h : Refines hash equal trie l) (key : K) :
    Refines hash equal (trie.without equal (hash key) key) (AssociationList.remove equal l key) ∧
      (holds equal l key = false → trie.without equal (hash key) key = trie) := by
  unfold Trie.without
  cases hroot : trie.root with
  | none =>
    have hempty : trie.entries = [] := by simp [Trie.entries, hroot]
    have hl : l = [] := by
      have := h.perm
      rw [hempty] at this
      exact this.nil_eq.symm
    subst hl
    exact ⟨h, fun _ => rfl⟩
  | some node =>
    have hgather := Trie.entries_eq hroot
    have htaken : TakenOutcome hash equal 0 (hash key) key trie.entries
        (taken equal node.header node.words 0 (hash key) key) := by
      rw [hgather]
      exact taken_outcome hh rfl (h.sound node hroot (hash key)) (.refl _ _)
    dsimp only
    generalize taken equal node.header node.words 0 (hash key) key = result at htaken
    cases htaken with
    | absent hnone =>
      have hholds := holds_listed h.perm hnone
      rw [remove_of_not_holds hholds]
      exact ⟨h, fun _ => rfl⟩
    | @emptied there hes heq =>
      have hholds : holds equal l key = true := holds_of_listed h.perm (by simp [hes]) heq
      refine ⟨?_, fun hn => absurd hn (by simp [hholds])⟩
      exact @refines_removed K V hash equal trie l [] [] there none key he h hes heq rfl
        (by simp)
    | @left node' front back there hes heq hnode hs =>
      have hholds : holds equal l key = true := holds_of_listed h.perm (by simp [hes]) heq
      refine ⟨?_, fun hn => absurd hn (by simp [hholds])⟩
      exact refines_removed he h hes heq hnode (sound_root hs)

/-- What a trie's `find` comes to in the list. -/
theorem Refines.find {trie : Trie K V} {l : List (K × V)}
    (he : Equivalence (fun a b => equal a b = true))
    (hh : ∀ a b, equal a b = true → hash a = hash b) (h : Refines hash equal trie l) (key : K) :
    (trie.find equal (hash key) key).map Entry.value = lookup equal l key ∧
      (trie.find equal (hash key) key).isSome = holds equal l key := by
  have hfound : Found equal key trie.entries (trie.find equal (hash key) key) := by
    unfold Trie.find Trie.entries
    cases hroot : trie.root with
    | none => simp [Found]
    | some node => exact findFrom_found hh rfl (h.sound node hroot (hash key)) (.refl _ _)
  cases hfind : trie.find equal (hash key) key with
  | none =>
    rw [hfind] at hfound
    have hholds := holds_listed h.perm hfound
    have hlookup : lookup equal l key = none := by
      have hnone := holds_eq_false.mp hholds
      simp only [lookup, Option.map_eq_none_iff, List.find?_eq_none]
      intro p hp
      simp [hnone p hp]
    simp [hholds, hlookup]
  | some e =>
    rw [hfind] at hfound
    have hmem : (e.key, e.value) ∈ l := h.perm.mem_iff.mp (List.mem_map.mpr ⟨e, hfound.1, rfl⟩)
    have hlookup := lookup_of_mem he h.distinct hmem hfound.2
    simp [hlookup, holds_of_mem hmem hfound.2]

theorem length_put_le (l : List (K × V)) (onEqual : OnEqual) (key : K) (value : V) :
    (Collection.put equal onEqual l key value).length ≤ l.length + 1 := by
  cases onEqual with
  | keep => exact length_add_le l key value
  | takeValue => exact length_replace_le l key value

theorem length_foldl_put (l pairs : List (K × V)) (onEqual : OnEqual) :
    (pairs.foldl (fun l pair => Collection.put equal onEqual l pair.1 pair.2) l).length ≤
      l.length + pairs.length := by
  induction pairs generalizing l with
  | nil => simp
  | cons pair pairs ih =>
    have hput : (Collection.put equal onEqual l pair.1 pair.2).length ≤ l.length + 1 :=
      length_put_le l onEqual pair.1 pair.2
    have := ih (Collection.put equal onEqual l pair.1 pair.2)
    simp only [List.foldl_cons, List.length_cons]
    omega

/-- Putting pairs in one after another, as few as a list holds. -/
theorem refines_foldl {trie : Trie K V} {l pairs : List (K × V)} {onEqual : OnEqual}
    (he : Equivalence (fun a b => equal a b = true))
    (hh : ∀ a b, equal a b = true → hash a = hash b) (h : Refines hash equal trie l)
    (hlen : l.length + pairs.length < 2 ^ 63) :
    Refines hash equal
      (pairs.foldl (fun trie pair => trie.with equal ⟨hash pair.1, pair.1, pair.2⟩ onEqual) trie)
      (pairs.foldl (fun l pair => Collection.put equal onEqual l pair.1 pair.2) l) := by
  induction pairs generalizing trie l with
  | nil => exact h
  | cons pair pairs ih =>
    simp only [List.length_cons] at hlen
    have hput : (Collection.put equal onEqual l pair.1 pair.2).length ≤ l.length + 1 :=
      length_put_le l onEqual pair.1 pair.2
    refine ih (h.with he hh onEqual pair.1 pair.2 (by omega)) ?_
    change (Collection.put equal onEqual l pair.1 pair.2).length + pairs.length < 2 ^ 63
    omega

end Refinement

inductive MapStep (K V : Type)
  | insert (key : K) (value : V)
  | remove (key : K)
  | fromList (list : HeldList (K × V))

inductive SetStep (K : Type)
  | insert (element : K)
  | remove (element : K)
  | fromList (list : HeldList K)

section Runs

variable (hash : K → BitVec 64) (equal : K → K → Bool)

def mapStep (map : Map K V) : MapStep K V → Option (Map K V)
  | .insert key value => mapInsert hash equal map key value
  | .remove key => some (mapRemove hash equal map key)
  | .fromList list => some (mapFromList hash equal list)

def setStep (set : Set K) : SetStep K → Option (Set K)
  | .insert element => setInsert hash equal set element
  | .remove element => some (setRemove hash equal set element)
  | .fromList list => some (setFromList hash equal list)

def mapRun (steps : List (MapStep K V)) : Option (Map K V) :=
  steps.foldlM (mapStep hash equal) mapEmpty

def setRun (steps : List (SetStep K)) : Option (Set K) :=
  steps.foldlM (setStep hash equal) setEmpty

def bounded {α : Type} (l : List α) : Option (List α) :=
  if l.length ≤ HOLDS then some l else none

def listMapStep (l : List (K × V)) : MapStep K V → Option (List (K × V))
  | .insert key value => bounded (replace equal l key value)
  | .remove key => some (AssociationList.remove equal l key)
  | .fromList list =>
    some (list.elements.foldl (fun l pair => replace equal l pair.1 pair.2) [])

def listMapRun (steps : List (MapStep K V)) : Option (List (K × V)) :=
  steps.foldlM (listMapStep equal) []

def insertMember (members : List K) (element : K) : List K :=
  if members.any (fun member => equal member element) then members else members ++ [element]

def listSetStep (members : List K) : SetStep K → Option (List K)
  | .insert element => bounded (insertMember equal members element)
  | .remove element => some (members.filter (fun member => !equal member element))
  | .fromList list => some (list.elements.foldl (insertMember equal) [])

def listSetRun (steps : List (SetStep K)) : Option (List K) :=
  steps.foldlM (listSetStep equal) []

/-- Everything a map answers is what the association list says. -/
structure MapAnswers (map : Map K V) (l : List (K × V)) : Prop where
  distinct : Distinct equal l
  get : ∀ key, mapGet hash equal map key = lookup equal l key
  containsKey : ∀ key, mapContainsKey hash equal map key = holds equal l key
  keys : (mapKeys map).Perm (l.map Prod.fst)
  values : (mapValues map).Perm (l.map Prod.snd)
  toList : (mapToList map).Perm l
  inOrder : mapToList map = (mapKeys map).zip (mapValues map)
  size : mapSize map = l.length
  removeAbsent : ∀ key, holds equal l key = false → mapRemove hash equal map key = map

structure SetAnswers (set : Set K) (members : List K) : Prop where
  distinct : members.Pairwise (fun a b => equal a b = false)
  contains : ∀ element,
    setContains hash equal set element = members.any (fun member => equal member element)
  toList : (setToList set).Perm members
  size : setSize set = members.length
  removeAbsent : ∀ element, members.any (fun member => equal member element) = false →
    setRemove hash equal set element = set
  insertPresent : ∀ element, members.any (fun member => equal member element) = true →
    setInsert hash equal set element = some set

end Runs

section Agreement

variable {hash : K → BitVec 64} {equal : K → K → Bool}

def Kept (hash : K → BitVec 64) (equal : K → K → Bool) (trie : Trie K V) (l : List (K × V)) :
    Prop :=
  Refines hash equal trie l ∧ l.length ≤ HOLDS

theorem holds_lt {n : ℕ} (h : n ≤ HOLDS) : n + 1 < 2 ^ 63 := by
  have : HOLDS + 1 < 2 ^ 63 := by decide
  omega

theorem held_kept {trie : Trie K V} {l : List (K × V)} (h : Refines hash equal trie l) :
    Together (Kept hash equal) (held trie) (bounded l) := by
  unfold held bounded
  rw [h.size]
  split_ifs with hle
  · exact ⟨h, hle⟩
  · trivial

theorem remove_kept {trie : Trie K V} {l : List (K × V)}
    (he : Equivalence (fun a b => equal a b = true))
    (hh : ∀ a b, equal a b = true → hash a = hash b) (h : Kept hash equal trie l) (key : K) :
    Kept hash equal (mapRemove hash equal trie key) (AssociationList.remove equal l key) := by
  obtain ⟨hrefines, hle⟩ := h
  obtain ⟨hremoved, -⟩ := hrefines.without he hh key
  have hlength : (AssociationList.remove equal l key).length ≤ l.length := length_remove_le l key
  refine ⟨?_, by omega⟩
  unfold mapRemove
  dsimp only
  split_ifs with hsize
  · have hall : (AssociationList.remove equal l key).length = l.length := by
      rw [← hremoved.size, ← hrefines.size, hsize]
    have hnone : holds equal l key = false := by
      rw [holds_eq_false]
      simpa using List.length_filter_eq_length_iff.mp hall
    rw [remove_of_not_holds hnone]
    exact hrefines
  · exact hremoved

theorem removeAbsent {trie : Trie K V} {l : List (K × V)}
    (he : Equivalence (fun a b => equal a b = true))
    (hh : ∀ a b, equal a b = true → hash a = hash b) (h : Refines hash equal trie l) (key : K)
    (hn : holds equal l key = false) : mapRemove hash equal trie key = trie := by
  have hsame := (h.without he hh key).2 hn
  simp [mapRemove, hsame]

theorem fromList_kept (he : Equivalence (fun a b => equal a b = true))
    (hh : ∀ a b, equal a b = true → hash a = hash b) (onEqual : OnEqual) {pairs : List (K × V)}
    (hle : pairs.length ≤ HOLDS) :
    Kept hash equal
      (pairs.foldl (fun trie pair => trie.with equal ⟨hash pair.1, pair.1, pair.2⟩ onEqual) EMPTY)
      (pairs.foldl (fun l pair => Collection.put equal onEqual l pair.1 pair.2) []) := by
  have hlt := holds_lt hle
  have hlength : (pairs.foldl (fun l pair => Collection.put equal onEqual l pair.1 pair.2)
      []).length ≤ _ := length_foldl_put [] pairs onEqual
  simp only [List.length_nil, Nat.zero_add] at hlength
  exact ⟨refines_foldl he hh refines_empty (by simp only [List.length_nil]; omega), by omega⟩

theorem mapStep_together (he : Equivalence (fun a b => equal a b = true))
    (hh : ∀ a b, equal a b = true → hash a = hash b) (map : Map K V) (l : List (K × V))
    (step : MapStep K V) (h : Kept hash equal map l) :
    Together (Kept hash equal) (mapStep hash equal map step) (listMapStep equal l step) := by
  cases step with
  | insert key value => exact held_kept (h.1.with he hh .takeValue key value (holds_lt h.2))
  | remove key => exact remove_kept he hh h key
  | fromList list => exact fromList_kept he hh .takeValue list.held

theorem Kept.mapAnswers {map : Map K V} {l : List (K × V)}
    (he : Equivalence (fun a b => equal a b = true))
    (hh : ∀ a b, equal a b = true → hash a = hash b) (h : Kept hash equal map l) :
    MapAnswers hash equal map l where
  distinct := h.1.distinct
  get key := (h.1.find he hh key).1
  containsKey key := (h.1.find he hh key).2
  keys := by simpa [mapKeys, listed, Function.comp_def] using h.1.perm.map Prod.fst
  values := by simpa [mapValues, listed, Function.comp_def] using h.1.perm.map Prod.snd
  toList := h.1.perm
  inOrder := by
    simp only [mapToList, mapKeys, mapValues, List.zip_map']
  size := h.1.size
  removeAbsent := removeAbsent he hh h.1

/-- Every run over maps ends where the one over association lists does, and the map it reaches
answers everything as that list. -/
theorem mapRun_answers (he : Equivalence (fun a b => equal a b = true))
    (hh : ∀ a b, equal a b = true → hash a = hash b) (steps : List (MapStep K V)) :
    Together (MapAnswers hash equal) (mapRun hash equal steps) (listMapRun equal steps) := by
  have hstart : Kept hash equal (mapEmpty : Map K V) [] := ⟨refines_empty, Nat.zero_le _⟩
  exact (together_foldlM (mapStep_together he hh) hstart steps).mono
    (fun _ _ h => h.mapAnswers he hh)

def nought (members : List K) : List (K × Int64) := members.map (fun member => (member, 0))

theorem holds_nought (members : List K) (element : K) :
    holds equal (nought members) element = members.any (fun member => equal member element) := by
  simp [holds, nought, List.any_map, Function.comp_def]

theorem add_nought (members : List K) (element : K) :
    add equal (nought members) element 0 = nought (insertMember equal members element) := by
  unfold add insertMember
  rw [holds_nought]
  split_ifs
  · rfl
  · simp [nought]

theorem remove_nought (members : List K) (element : K) :
    AssociationList.remove equal (nought members) element =
      nought (members.filter (fun member => !equal member element)) := by
  simp [AssociationList.remove, nought, List.filter_map, Function.comp_def]

theorem foldl_nought (elements members : List K) :
    (nought elements).foldl (fun l pair => add equal l pair.1 pair.2) (nought members) =
      nought (elements.foldl (insertMember equal) members) := by
  induction elements generalizing members with
  | nil => rfl
  | cons element elements ih =>
    have hcons : nought (element :: elements) = (element, 0) :: nought elements := rfl
    rw [hcons, List.foldl_cons, List.foldl_cons, add_nought, ih]

theorem length_nought (members : List K) : (nought members).length = members.length := by
  simp [nought]

def KeptSet (hash : K → BitVec 64) (equal : K → K → Bool) (set : Set K) (members : List K) :
    Prop :=
  Kept hash equal set (nought members)

/-- An insertion leaves a set that holds an equal member, and is the trie's where it does not. -/
theorem setInsert_eq {set : Set K} {members : List K}
    (he : Equivalence (fun a b => equal a b = true))
    (hh : ∀ a b, equal a b = true → hash a = hash b) (h : KeptSet hash equal set members)
    (element : K) : setInsert hash equal set element =
      if members.any (fun member => equal member element) then some set
      else held (set.with equal (member hash element) .keep) := by
  have hwith := (h.1.with he hh .keep element 0 (holds_lt h.2)).size
  have hsize := h.1.size
  simp only [Collection.put] at hwith
  rw [add_nought, length_nought] at hwith
  rw [length_nought] at hsize
  unfold setInsert
  dsimp only [member]
  rw [hwith, hsize, insertMember]
  split_ifs <;> simp_all

theorem setStep_together (he : Equivalence (fun a b => equal a b = true))
    (hh : ∀ a b, equal a b = true → hash a = hash b) (set : Set K) (members : List K)
    (step : SetStep K) (h : KeptSet hash equal set members) :
    Together (KeptSet hash equal) (setStep hash equal set step)
      (listSetStep equal members step) := by
  cases step with
  | insert element =>
    have hle := h.2
    rw [length_nought] at hle
    have hwith := h.1.with he hh .keep element 0 (holds_lt h.2)
    simp only [Collection.put] at hwith
    rw [add_nought] at hwith
    rw [setStep, listSetStep, setInsert_eq he hh h]
    split_ifs with hholds
    · simpa [insertMember, hholds, bounded, hle, Together] using h
    · have hkept := held_kept hwith
      simp only [bounded, length_nought] at hkept ⊢
      split_ifs at hkept ⊢ with hbound
      · cases hheld : held (set.with equal ⟨hash element, element, 0⟩ .keep) with
        | none => simp [hheld, Together] at hkept
        | some with' =>
          rw [hheld] at hkept
          rw [member, hheld]
          exact hkept
      · cases hheld : held (set.with equal ⟨hash element, element, 0⟩ .keep) with
        | none =>
          rw [member, hheld]
          trivial
        | some with' => simp [hheld, Together] at hkept
  | remove element =>
    have hremoved := remove_kept he hh h element
    rw [remove_nought] at hremoved
    exact hremoved
  | fromList list =>
    have hle : (nought list.elements).length ≤ HOLDS := by
      rw [length_nought]
      exact list.held
    have hkept := fromList_kept he hh .keep hle
    have hlist : (nought list.elements).foldl
        (fun l pair => Collection.put equal .keep l pair.1 pair.2) [] = _ :=
      foldl_nought list.elements []
    rw [hlist, nought, List.foldl_map] at hkept
    exact hkept

theorem KeptSet.setAnswers {set : Set K} {members : List K}
    (he : Equivalence (fun a b => equal a b = true))
    (hh : ∀ a b, equal a b = true → hash a = hash b) (h : KeptSet hash equal set members) :
    SetAnswers hash equal set members where
  distinct := by simpa [Distinct, nought, List.pairwise_map] using h.1.distinct
  contains element := by
    rw [setContains, (h.1.find he hh element).2, holds_nought]
  toList := by
    have hperm := h.1.perm.map Prod.fst
    simpa [setToList, listed, nought, Function.comp_def] using hperm
  size := by
    have hsize := h.1.size
    rwa [length_nought] at hsize
  removeAbsent element hn := removeAbsent he hh h.1 element (by rwa [holds_nought])
  insertPresent element hany := by rw [setInsert_eq he hh h, if_pos hany]

theorem setRun_answers (he : Equivalence (fun a b => equal a b = true))
    (hh : ∀ a b, equal a b = true → hash a = hash b) (steps : List (SetStep K)) :
    Together (SetAnswers hash equal) (setRun hash equal steps) (listSetRun equal steps) := by
  have hstart : KeptSet hash equal setEmpty ([] : List K) := ⟨refines_empty, Nat.zero_le _⟩
  exact (together_foldlM (setStep_together he hh) hstart steps).mono
    (fun _ _ h => h.setAnswers he hh)

end Agreement

/-- Maps and sets are the lists they stand for along every run, whatever their keys hash to. -/
theorem runs_answer {hash : K → BitVec 64} {equal : K → K → Bool}
    (he : Equivalence (fun a b => equal a b = true))
    (hh : ∀ a b, equal a b = true → hash a = hash b) :
    (∀ steps : List (MapStep K V),
      Together (MapAnswers hash equal) (mapRun hash equal steps) (listMapRun equal steps)) ∧
    ∀ steps : List (SetStep K),
      Together (SetAnswers hash equal) (setRun hash equal steps) (listSetRun equal steps) :=
  ⟨mapRun_answers he hh, setRun_answers he hh⟩

/-- Keys equal by their first half, every one of which hashes to the same word. -/
theorem runs_answer_clashing : ∃ map : Map (ℕ × ℕ) ℕ,
    mapRun (fun _ => 7#64) (fun a b => a.1 == b.1)
      [.insert (1, 0) 4, .insert (2, 0) 5, .insert (1, 9) 6, .remove (3, 0), .insert (4, 1) 7,
        .remove (2, 2)] = some map ∧
      MapAnswers (fun _ => 7#64) (fun a b => a.1 == b.1) map [((1, 0), 6), ((4, 1), 7)] := by
  have he : Equivalence (fun a b : ℕ × ℕ => (a.1 == b.1) = true) :=
    ⟨fun a => by simp, fun h => by simp_all, fun h k => by simp_all⟩
  have hruns := (@runs_answer _ ℕ (fun _ => 7#64) _ he (fun _ _ _ => rfl)).1
    [.insert (1, 0) 4, .insert (2, 0) 5, .insert (1, 9) 6, .remove (3, 0), .insert (4, 1) 7,
      .remove (2, 2)]
  have hlist : listMapRun (fun a b : ℕ × ℕ => a.1 == b.1)
      [.insert (1, 0) 4, .insert (2, 0) 5, .insert (1, 9) 6, .remove (3, 0), .insert (4, 1) 7,
        .remove (2, 2)] = some [((1, 0), 6), ((4, 1), 7)] := rfl
  rw [hlist] at hruns
  cases hmap : mapRun (fun _ => 7#64) (fun a b : ℕ × ℕ => a.1 == b.1)
      [.insert (1, 0) 4, .insert (2, 0) 5, .insert (1, 9) 6, .remove (3, 0), .insert (4, 1) 7,
        .remove (2, 2)] with
  | none => simp [hmap, Together] at hruns
  | some map =>
    rw [hmap] at hruns
    exact ⟨map, rfl, hruns⟩

end SoutherNative.Collection
