import Mathlib
import SoutherNative.Collection

set_option autoImplicit false

/-!
# Union, intersection and difference

The functions of the runtime's `collection` that make one set of two. Which of the two is walked and
which is asked is decided by their sizes, and the hashes the entries keep are used as they stand. A
set that is made by any of the functions holds what the mathematical operation does, and of two
equal members the one its operand held.
-/
namespace SoutherNative.Collection
open HashTrie AssociationList Simulation

variable {K V : Type}

/-- `answered`: whether there is a value, and what is in the room for it after. -/
def answered {T : Type} (value : Option T) (out : T) : Bool × T :=
  match value with
  | some value => (true, value)
  | none => (false, out)

section Functions

variable (equal : K → K → Bool)

/-- The two sets, the one holding more first, and `a` first where they hold as many. -/
def largerFirst (a b : Set K) : Set K × Set K := if a.size ≥ b.size then (a, b) else (b, a)

/-- `souther_set_union`, before what it answers is written. -/
def setUnion (a b : Set K) : Option (Set K) :=
  let (larger, smaller) := largerFirst a b
  held (smaller.entries.foldl (fun union entry => union.with equal entry .keep) larger)

def setIntersection (a b : Set K) : Set K :=
  let (larger, smaller) := largerFirst a b
  smaller.entries.foldl (fun kept entry =>
    if (larger.find equal entry.hash entry.key).isSome then kept.with equal entry .keep
    else kept) EMPTY

def setDifference (a b : Set K) : Set K :=
  a.entries.foldl (fun kept entry =>
    if (b.find equal entry.hash entry.key).isNone then kept.with equal entry .keep
    else kept) EMPTY

inductive Made (hash : K → BitVec 64) : Set K → Prop
  | empty : Made hash setEmpty
  | insert {set made : Set K} {element : K} : Made hash set →
    setInsert hash equal set element = some made → Made hash made
  | remove {set : Set K} {element : K} : Made hash set →
    Made hash (setRemove hash equal set element)
  | fromList {list : HeldList K} : Made hash (setFromList hash equal list)
  | union {a b made : Set K} : Made hash a → Made hash b → setUnion equal a b = some made →
    Made hash made
  | intersection {a b : Set K} : Made hash a → Made hash b → Made hash (setIntersection equal a b)
  | difference {a b : Set K} : Made hash a → Made hash b → Made hash (setDifference equal a b)

def among (members : List K) (element : K) : Bool := members.any fun member => equal member element

def unionOf (larger smaller : List K) : List K :=
  larger ++ smaller.filter fun element => !among equal larger element

def unionMembers (a b : Set K) : List K :=
  if setSize b ≤ setSize a then unionOf equal (setToList a) (setToList b)
  else unionOf equal (setToList b) (setToList a)

def intersectionMembers (a b : Set K) : List K :=
  if setSize b ≤ setSize a then (setToList b).filter (among equal (setToList a))
  else (setToList a).filter (among equal (setToList b))

def differenceMembers (a b : Set K) : List K :=
  (setToList a).filter fun element => !among equal (setToList b) element

end Functions

section Members

variable {equal : K → K → Bool}

/-- Members of which no two are equal, put in one after another, are each put in where none of those
there before is equal to it. -/
theorem foldl_insertMember {elements : List K}
    (hd : elements.Pairwise fun a b => equal a b = false) (members : List K) :
    elements.foldl (insertMember equal) members = unionOf equal members elements := by
  induction elements generalizing members with
  | nil => simp [unionOf]
  | cons element elements ih =>
    obtain ⟨hne, hrest⟩ := List.pairwise_cons.mp hd
    rw [List.foldl_cons, ih hrest, insertMember, unionOf, unionOf, List.filter_cons]
    by_cases hamong : among equal members element = true
    · have hany : members.any (fun member => equal member element) = true := hamong
      simp only [hany, hamong, if_true, Bool.not_true, Bool.false_eq_true, if_false]
    · have hany : members.any (fun member => equal member element) = false :=
        Bool.eq_false_iff.mpr hamong
      have hnone : among equal members element = false := hany
      have hlater : (elements.filter fun later => !among equal (members ++ [element]) later) =
          elements.filter fun later => !among equal members later := by
        apply List.filter_congr
        intro later hlater
        rw [among, List.any_append]
        simp [among, hne later hlater]
      simp only [hany, hnone, Bool.false_eq_true, if_false, Bool.not_false, if_true, hlater,
        List.append_assoc, List.singleton_append]

theorem unionOf_nil (elements : List K) : unionOf equal [] elements = elements := by
  simp [unionOf, among]

theorem among_unionOf (he : Equivalence (fun a b => equal a b = true)) (larger smaller : List K)
    (element : K) : among equal (unionOf equal larger smaller) element =
      (among equal larger element || among equal smaller element) := by
  apply Bool.eq_iff_iff.mpr
  simp only [among, unionOf, List.any_append, Bool.or_eq_true, List.any_eq_true, List.mem_filter]
  constructor
  · rintro (⟨member, hmem, heq⟩ | ⟨member, ⟨hmem, -⟩, heq⟩)
    · exact .inl ⟨member, hmem, heq⟩
    · exact .inr ⟨member, hmem, heq⟩
  · rintro (⟨member, hmem, heq⟩ | ⟨member, hmem, heq⟩)
    · exact .inl ⟨member, hmem, heq⟩
    · by_cases hlarger : among equal larger member = true
      · -- an equal member of the larger stands in the place of the smaller's
        obtain ⟨other, hother, heq'⟩ := List.any_eq_true.mp hlarger
        exact .inl ⟨other, hother, he.trans heq' heq⟩
      · have hnone : (larger.any fun other => equal other member) = false :=
          Bool.eq_false_iff.mpr hlarger
        exact .inr ⟨member, ⟨hmem, by simp [hnone]⟩, heq⟩

theorem among_filter (members : List K)
    {keep : K → Bool} (hkeep : ∀ a b, equal a b = true → keep a = keep b) (element : K) :
    among equal (members.filter keep) element = (among equal members element && keep element) := by
  apply Bool.eq_iff_iff.mpr
  simp only [among, Bool.and_eq_true, List.any_eq_true, List.mem_filter]
  constructor
  · rintro ⟨member, ⟨hmem, hkept⟩, heq⟩
    exact ⟨⟨member, hmem, heq⟩, by rwa [← hkeep member element heq]⟩
  · rintro ⟨⟨member, hmem, heq⟩, hkept⟩
    exact ⟨member, ⟨hmem, by rwa [hkeep member element heq]⟩, heq⟩

theorem among_congr (he : Equivalence (fun a b => equal a b = true)) (members : List K) (a b : K)
    (h : equal a b = true) : among equal members a = among equal members b := by
  apply Bool.eq_iff_iff.mpr
  simp only [among, List.any_eq_true]
  constructor
  · rintro ⟨member, hmem, heq⟩
    exact ⟨member, hmem, he.trans heq h⟩
  · rintro ⟨member, hmem, heq⟩
    exact ⟨member, hmem, he.trans heq (he.symm h)⟩

end Members

section Kept

variable {hash : K → BitVec 64} {equal : K → K → Bool}

theorem Refines.hash_eq {trie : Trie K V} {l : List (K × V)} (h : Refines hash equal trie l)
    {e : Entry K V} (he : e ∈ trie.entries) : e.hash = hash e.key := by
  unfold Trie.entries at he
  cases hroot : trie.root with
  | none => simp [hroot] at he
  | some node =>
    rw [hroot] at he
    exact (Sound.entries node.word (h.sound node hroot 0#64) e he).1

/-- A set's entries are those of its members, whose hashes were kept. -/
theorem KeptSet.entries {set : Set K} {members : List K} (h : KeptSet hash equal set members) :
    set.entries = (setToList set).map (member hash) := by
  have hentry : ∀ entry ∈ set.entries, entry = member hash entry.key := by
    intro entry hentry
    have hhash := h.1.hash_eq hentry
    have hvalue : entry.value = 0 := by
      have hmem : (entry.key, entry.value) ∈ nought members :=
        h.1.perm.mem_iff.mp (List.mem_map.mpr ⟨entry, hentry, rfl⟩)
      obtain ⟨_, -, heq⟩ := List.mem_map.mp hmem
      exact (Prod.mk.inj heq).2.symm
    rw [member, ← hhash, ← hvalue]
  rw [setToList, List.map_map]
  conv_lhs => rw [← List.map_id set.entries]
  exact List.map_congr_left hentry

theorem KeptSet.own {set : Set K} {members : List K}
    (he : Equivalence (fun a b => equal a b = true)) (h : KeptSet hash equal set members) :
    KeptSet hash equal set (setToList set) := by
  have hlisted : listed set.entries = nought (setToList set) := by
    rw [h.entries, listed, nought]
    simp [member, setToList]
  have hperm := h.1.perm
  rw [hlisted] at hperm
  refine ⟨⟨h.1.sound, ?_, ?_, distinct_perm he hperm.symm h.1.distinct⟩, ?_⟩
  · rw [hlisted]
  · rw [h.1.size, hperm.length_eq]
  · rw [hperm.length_eq]
    exact h.2

theorem KeptSet.length_le {set : Set K} {members : List K} (h : KeptSet hash equal set members) :
    members.length ≤ HOLDS := by
  have hle := h.2
  rwa [length_nought] at hle

variable (he : Equivalence (fun a b => equal a b = true))
  (hh : ∀ a b, equal a b = true → hash a = hash b)

include he hh

omit he hh in
theorem held_keptSet {set : Set K} {members : List K}
    (h : Refines hash equal set (nought members)) :
    Together (KeptSet hash equal) (held set) (bounded members) := by
  have hkept := held_kept h
  rw [bounded, length_nought] at hkept
  rw [bounded]
  split_ifs at hkept ⊢ <;> cases hheld : held set <;> rw [hheld] at hkept <;> exact hkept

theorem refines_puts {set : Set K} {members elements : List K}
    (h : Refines hash equal set (nought members))
    (hd : elements.Pairwise fun a b => equal a b = false)
    (hlen : members.length + elements.length < 2 ^ 63) :
    Refines hash equal
      ((elements.map (member hash)).foldl (fun set entry => set.with equal entry .keep) set)
      (nought (unionOf equal members elements)) := by
  have hputs := @refines_foldl K Int64 hash equal set (nought members) (nought elements) .keep he hh
    h (by rw [length_nought, length_nought]; exact hlen)
  have hlist : (nought elements).foldl (fun l pair => Collection.put equal .keep l pair.1 pair.2)
      (nought members) = _ := foldl_nought elements members
  rw [hlist, foldl_insertMember hd, nought, List.foldl_map] at hputs
  rw [List.foldl_map]
  exact hputs

theorem KeptSet.found {set : Set K} (h : KeptSet hash equal set (setToList set)) (element : K) :
    (set.find equal (hash element) element).isSome = among equal (setToList set) element := by
  rw [(h.1.find he hh element).2, holds_nought, among]

theorem KeptSet.distinct {set : Set K} (h : KeptSet hash equal set (setToList set)) :
    (setToList set).Pairwise fun a b => equal a b = false := (h.setAnswers he hh).distinct

theorem union_together {larger smaller : Set K}
    (hl : KeptSet hash equal larger (setToList larger))
    (hs : KeptSet hash equal smaller (setToList smaller)) :
    Together (KeptSet hash equal)
      (held (smaller.entries.foldl (fun union entry => union.with equal entry .keep) larger))
      (bounded (unionOf equal (setToList larger) (setToList smaller))) := by
  have hlarger := hl.length_le
  have hsmaller := hs.length_le
  have hholds : HOLDS + HOLDS < 2 ^ 63 := by decide
  apply held_keptSet
  rw [hs.entries]
  exact refines_puts he hh hl.1 (hs.distinct he hh) (by omega)

theorem setUnion_together {a b : Set K} (ha : KeptSet hash equal a (setToList a))
    (hb : KeptSet hash equal b (setToList b)) :
    Together (KeptSet hash equal) (setUnion equal a b) (bounded (unionMembers equal a b)) := by
  rw [setUnion, largerFirst, unionMembers]
  by_cases hsize : setSize b ≤ setSize a
  · rw [if_pos hsize, if_pos (show a.size ≥ b.size from hsize)]
    exact union_together he hh ha hb
  · rw [if_neg hsize, if_neg (show ¬a.size ≥ b.size from hsize)]
    exact union_together he hh hb ha

theorem filter_kept {walked asked : Set K} (hw : KeptSet hash equal walked (setToList walked))
    {found : Option (Entry K Int64) → Bool} {keep : K → Bool}
    (hkeep : ∀ element, found (asked.find equal (hash element) element) = keep element) :
    KeptSet hash equal
      (walked.entries.foldl (fun kept entry =>
        if found (asked.find equal entry.hash entry.key) = true then kept.with equal entry .keep
        else kept) EMPTY)
      ((setToList walked).filter keep) := by
  have hfound : ∀ element, found (asked.find equal (member hash element).hash
      (member hash element).key) = keep element := hkeep
  have hwalked := hw.length_le
  have hlen : ((setToList walked).filter keep).length ≤ (setToList walked).length :=
    List.length_filter_le _ _
  have hholds : HOLDS < 2 ^ 63 := by decide
  have hputs := @refines_puts K hash equal he hh EMPTY [] _ refines_empty
    ((hw.distinct he hh).filter keep) (by rw [List.length_nil]; omega)
  rw [unionOf_nil, List.foldl_map, List.foldl_filter] at hputs
  rw [hw.entries, List.foldl_map]
  simp only [hfound]
  refine ⟨hputs, ?_⟩
  rw [length_nought]
  omega

theorem setIntersection_kept {a b : Set K} (ha : KeptSet hash equal a (setToList a))
    (hb : KeptSet hash equal b (setToList b)) :
    KeptSet hash equal (setIntersection equal a b) (intersectionMembers equal a b) := by
  rw [setIntersection, largerFirst, intersectionMembers]
  by_cases hsize : setSize b ≤ setSize a
  · rw [if_pos hsize, if_pos (show a.size ≥ b.size from hsize)]
    exact filter_kept he hh hb (ha.found he hh)
  · rw [if_neg hsize, if_neg (show ¬a.size ≥ b.size from hsize)]
    exact filter_kept he hh ha (hb.found he hh)

theorem setDifference_kept {a b : Set K} (ha : KeptSet hash equal a (setToList a))
    (hb : KeptSet hash equal b (setToList b)) :
    KeptSet hash equal (setDifference equal a b) (differenceMembers equal a b) := by
  apply filter_kept he hh ha
  intro element
  rw [← hb.found he hh]
  cases b.find equal (hash element) element <;> rfl

/-- Every set the functions make is what it lists. -/
theorem Made.kept {set : Set K} (h : Made equal hash set) :
    KeptSet hash equal set (setToList set) := by
  have hempty : KeptSet hash equal (setEmpty : Set K) [] := ⟨refines_empty, Nat.zero_le _⟩
  have hmade : ∀ {made : Option (Set K)} {members : Option (List K)} {set : Set K},
      Together (KeptSet hash equal) made members → made = some set →
      KeptSet hash equal set (setToList set) := by
    intro made members set htogether hset
    subst hset
    cases members with
    | none => exact htogether.elim
    | some members => exact KeptSet.own he htogether
  induction h with
  | empty => exact hempty.own he
  | @insert set made element _ hinsert ih =>
    exact hmade (setStep_together he hh set (setToList set) (.insert element) ih) hinsert
  | @remove set element _ ih =>
    exact KeptSet.own he (setStep_together he hh set (setToList set) (.remove element) ih)
  | @fromList list =>
    exact KeptSet.own he (setStep_together he hh setEmpty [] (.fromList list) hempty)
  | union _ _ hunion iha ihb => exact hmade (setUnion_together he hh iha ihb) hunion
  | intersection _ _ iha ihb => exact KeptSet.own he (setIntersection_kept he hh iha ihb)
  | difference _ _ iha ihb => exact KeptSet.own he (setDifference_kept he hh iha ihb)

/-- What is answered of a set that may hold too many: nothing, and what was in the room for it left,
exactly where it would; and else a set of these members. -/
def AnswersOf (hash : K → BitVec 64) (equal : K → K → Bool) (made : Option (Set K))
    (members : List K) : Prop :=
  ∀ out, (HOLDS < members.length ∧ answered made out = (false, out)) ∨
    members.length ≤ HOLDS ∧
      ∃ set, answered made out = (true, set) ∧ SetAnswers hash equal set members

theorem answersOf {made : Option (Set K)} {members : List K}
    (h : Together (KeptSet hash equal) made (bounded members)) :
    AnswersOf hash equal made members := by
  intro out
  rw [bounded] at h
  split_ifs at h with hle
  · right
    cases made with
    | none => exact h.elim
    | some set => exact ⟨hle, set, rfl, KeptSet.setAnswers he hh h⟩
  · left
    cases made with
    | none => exact ⟨not_le.mp hle, rfl⟩
    | some set => exact h.elim

end Kept

/-- A union, an intersection and a difference of any sets the functions make hold what the
mathematical ones do: of two equal members a union keeps the larger set's and an intersection the
smaller's, and nothing is answered exactly where a set would hold more than one holds. -/
theorem sets_combine {hash : K → BitVec 64} {equal : K → K → Bool}
    (he : Equivalence (fun a b => equal a b = true))
    (hh : ∀ a b, equal a b = true → hash a = hash b) {a b : Set K} (ha : Made equal hash a)
    (hb : Made equal hash b) :
    (∀ element, AnswersOf hash equal (setInsert hash equal a element)
      (insertMember equal (setToList a) element)) ∧
    AnswersOf hash equal (setUnion equal a b) (unionMembers equal a b) ∧
    SetAnswers hash equal (setIntersection equal a b) (intersectionMembers equal a b) ∧
    SetAnswers hash equal (setDifference equal a b) (differenceMembers equal a b) ∧
    ∀ element,
      among equal (unionMembers equal a b) element =
        (setContains hash equal a element || setContains hash equal b element) ∧
      setContains hash equal (setIntersection equal a b) element =
        (setContains hash equal a element && setContains hash equal b element) ∧
      setContains hash equal (setDifference equal a b) element =
        (setContains hash equal a element && !setContains hash equal b element) := by
  have hka := ha.kept he hh
  have hkb := hb.kept he hh
  have hin := (setIntersection_kept he hh hka hkb).setAnswers he hh
  have hdiff := (setDifference_kept he hh hka hkb).setAnswers he hh
  have hcongr := @among_congr K equal he
  refine ⟨?_, ?_, hin, hdiff, ?_⟩
  · intro element
    exact answersOf he hh (setStep_together he hh a (setToList a) (.insert element) hka)
  · exact answersOf he hh (setUnion_together he hh hka hkb)
  · intro element
    have hfound : ∀ set : Set K, KeptSet hash equal set (setToList set) →
        setContains hash equal set element = among equal (setToList set) element :=
      fun set h => h.found he hh element
    rw [hin.contains, hdiff.contains, hfound a hka, hfound b hkb]
    refine ⟨?_, ?_, ?_⟩
    · rw [unionMembers]
      split_ifs
      · exact among_unionOf he _ _ element
      · rw [among_unionOf he, Bool.or_comm]
    · change among equal (intersectionMembers equal a b) element = _
      rw [intersectionMembers]
      split_ifs
      · rw [among_filter _ (hcongr _), Bool.and_comm]
      · rw [among_filter _ (hcongr _)]
    · have hnot : ∀ one other, equal one other = true →
          (!among equal (setToList b) one) = !among equal (setToList b) other :=
        fun one other heq => congrArg not (hcongr _ one other heq)
      exact among_filter (setToList a) hnot element

/-- Keys equal by their first half, every one of which hashes to the same word: what two sets as
large share is the second's. -/
theorem sets_combine_clashing : SetAnswers (fun _ : ℕ × ℕ => 7#64) (fun a b => a.1 == b.1)
    (setIntersection (fun a b => a.1 == b.1)
      (setFromList (fun _ => 7#64) (fun a b => a.1 == b.1) ⟨[(1, 0), (2, 0)], by decide⟩)
      (setFromList (fun _ => 7#64) (fun a b => a.1 == b.1) ⟨[(2, 5), (3, 0)], by decide⟩))
    (intersectionMembers (fun a b => a.1 == b.1)
      (setFromList (fun _ => 7#64) (fun a b => a.1 == b.1) ⟨[(1, 0), (2, 0)], by decide⟩)
      (setFromList (fun _ => 7#64) (fun a b => a.1 == b.1) ⟨[(2, 5), (3, 0)], by decide⟩)) := by
  have he : Equivalence (fun a b : ℕ × ℕ => (a.1 == b.1) = true) :=
    ⟨fun a => by simp, fun h => by simp_all, fun h k => by simp_all⟩
  exact (sets_combine he (fun _ _ _ => rfl) .fromList .fromList).2.2.1

end SoutherNative.Collection
