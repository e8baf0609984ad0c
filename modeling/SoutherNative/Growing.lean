import SoutherNative.ListLayout

set_option autoImplicit false

/-!
# Growing a list in place

What a walk building a list grows it in: two slots holding the list so far and how many elements
that list has room for. The list is moved into more room where an addition would go past it, and
handed over as it is.
-/
namespace SoutherNative.Growing
open Rooms ListLayout

def GROWN : Word := 0

def GROWN_ROOM : Word := SLOT

def FIRST_ROOM : Word := 8

/-- An empty list, with room for `FIRST_ROOM` elements. -/
def start : Run Pointer := do
  let growing ← roomOf (2 * SLOT)
  let list ← roomOf (roomForList FIRST_ROOM)
  store (list.along LIST_LENGTH) (.word 0)
  store (growing.along GROWN) (.pointer list)
  store (growing.along GROWN_ROOM) (.word FIRST_ROOM)
  return growing

def moved (growing list : Pointer) (room wanted length : Word) : Run Pointer := do
  let doubled := room + room
  let room := if doubled.ult wanted then wanted else doubled
  let slots := room * SLOT
  let bytes := slots + roomForList 0
  let moved ← roomOf bytes
  copySlots (list.along (listAt 0)) (moved.along (listAt 0)) length
  store (moved.along LIST_LENGTH) (.word length)
  store (growing.along GROWN) (.pointer moved)
  store (growing.along GROWN_ROOM) (.word room)
  return moved

/-- The list so far, with room for `adding` more elements after its length, and that length. The run
    ends before any room is made where the list would hold more than a list holds. -/
def roomFor (status : ℕ) (growing : Pointer) (adding : Word) : Run (Pointer × Word) := do
  let list ← loadPointer (growing.along GROWN)
  let room ← loadWord (growing.along GROWN_ROOM)
  let length ← ListLayout.length list
  let wanted := length + adding
  abortPastWhatAListHolds status wanted
  if wanted.ule room then return (list, length)
  else do
    let list ← moved growing list room wanted length
    return (list, length)

/-- `value` added after what is there. -/
def add (status : ℕ) (growing : Pointer) (value : Slot) : Run Unit := do
  let (list, length) ← roomFor status growing 1
  let along := length * SLOT
  store ((list.along along).along (listAt 0)) value
  let grown := length + 1
  store (list.along LIST_LENGTH) (.word grown)

/-- Every element of the list `added` added after what is there, in its order. -/
def addAll (status : ℕ) (growing added : Pointer) : Run Unit := do
  let adding ← ListLayout.length added
  let (list, length) ← roomFor status growing adding
  let along := length * SLOT
  copySlots (added.along (listAt 0)) ((list.along along).along (listAt 0)) adding
  let grown := length + adding
  store (list.along LIST_LENGTH) (.word grown)

def sealed (growing : Pointer) : Run Pointer := loadPointer (growing.along GROWN)

def most : ℕ := 2 ^ 31 - 1

structure Grown (m : Memory) (growing list : Pointer) (room : ℕ) (xs : List Slot) : Prop where
  front : growing.offset = 0
  taken : growing.room < m.taken
  inside : 16 ≤ m.size growing.room
  grown : m.slot growing.room 0 = some (.pointer list)
  grownRoom : m.slot growing.room 1 = some (.word (BitVec.ofNat 64 room))
  isList : IsList m list xs
  roomy : Roomy m list room
  apart : list.room ≠ growing.room
  within : xs.length ≤ room
  held : xs.length ≤ most
  small : room ≤ 2 * most

section

variable {m : Memory} {growing list : Pointer} {room : ℕ} {xs : List Slot}

lemma Grown.stands (grows : Grown m growing list room xs) {i : ℕ} (two : i < 2) :
    Stands m growing.room i :=
  ⟨grows.taken, by have := grows.inside; omega, by omega⟩

lemma along_grown (front : growing.offset = 0) : growing.along GROWN = slotAt growing.room 0 := by
  unfold slotAt Pointer.along GROWN
  simp [front]

lemma along_grownRoom (front : growing.offset = 0) :
    growing.along GROWN_ROOM = slotAt growing.room 1 := by
  unfold slotAt Pointer.along GROWN_ROOM SLOT
  rw [front]
  rfl

/-- What is grown stays as it was where its two slots and its list do. -/
lemma Grown.keeps (grows : Grown m growing list room xs) {apart : ℕ → Prop} {m' : Memory}
    (kept : Keeps apart m m') (cell : ¬apart growing.room) (held : ¬apart list.room) :
    Grown m' growing list room xs where
  front := grows.front
  taken := lt_of_lt_of_le grows.taken kept.taken
  inside := by
    rw [kept.size _ grows.taken]
    exact grows.inside
  grown := by
    rw [kept.slot _ grows.taken cell]
    exact grows.grown
  grownRoom := by
    rw [kept.slot _ grows.taken cell]
    exact grows.grownRoom
  isList := grows.isList.keeps kept held
  roomy := grows.roomy.keeps kept
  apart := grows.apart
  within := grows.within
  held := grows.held
  small := grows.small

lemma Grown.sealed_eq (grows : Grown m growing list room xs) :
    sealed growing m = .answered list m := by
  unfold sealed
  rw [along_grown grows.front]
  exact loadPointer_slotAt (grows.stands (by omega)) grows.grown

end

lemma start_spec (m : Memory) : ∃ growing list m', start m = .answered growing m' ∧
    Grown m' growing list 8 [] ∧ Keeps (fun _ => False) m m' := by
  let cell : Pointer := ⟨m.taken, 0⟩
  let first : Pointer := ⟨m.taken + 1, 0⟩
  let m₁ := m.grown 16
  let m₂ := m₁.grown 72
  let m₃ := m₂.written first.room 0 (.word 0)
  let m₄ := m₃.written cell.room 0 (.pointer first)
  let m₅ := m₄.written cell.room 1 (.word FIRST_ROOM)
  have cellSize : m₂.size cell.room = 16 := by
    change (m₁.grown 72).size m.taken = 16
    rw [m₁.grown_size_old 72 (by change m.taken ≠ m.taken + 1; omega)]
    exact m.grown_size_new 16
  have firstSize : m₂.size first.room = 72 := m₁.grown_size_new 72
  have cellStands : ∀ i < 2, Stands m₂ cell.room i := by
    intro i two
    refine ⟨?_, by omega, by omega⟩
    change m.taken < m.taken + 1 + 1
    omega
  have firstStands : Stands m₂ first.room 0 := ⟨Nat.lt_succ_self _, by omega, by omega⟩
  have kept : ∀ r i, r < m.taken → m₅.slot r i = m.slot r i := by
    intro r i inside
    have notCell : r ≠ cell.room := by change r ≠ m.taken; omega
    have notFirst : r ≠ first.room := by change r ≠ m.taken + 1; omega
    calc m₅.slot r i = m₄.slot r i := m₄.written_other _ (Or.inl notCell)
      _ = m₃.slot r i := m₃.written_other _ (Or.inl notCell)
      _ = m₂.slot r i := m₂.written_other _ (Or.inl notFirst)
      _ = m₁.slot r i := m₁.grown_slot_old 72 notFirst i
      _ = m.slot r i := m.grown_slot_old 16 notCell i
  have apart : first.room ≠ cell.room := by change m.taken + 1 ≠ m.taken; omega
  have length : m₅.slot first.room 0 = some (.word 0) := by
    calc m₅.slot first.room 0 = m₄.slot first.room 0 := m₄.written_other _ (Or.inl apart)
      _ = m₃.slot first.room 0 := m₃.written_other _ (Or.inl apart)
      _ = some (.word 0) := m₂.written_same _ _ _
  have roomy : Roomy m₅ first 8 := ⟨rfl, Nat.lt_succ_self _, by
    change 8 * (8 + 1) ≤ m₂.size first.room
    omega, by unfold longest; omega⟩
  refine ⟨cell, first, m₅, ?_, ?_, ?_⟩
  · have takeCell : roomOf (2 * SLOT) m = .answered cell m₁ := rfl
    have takeFirst : roomOf (roomForList FIRST_ROOM) m₁ = .answered first m₂ := rfl
    unfold start
    rw [Run.bind_answered takeCell, Run.bind_answered takeFirst, along_length rfl,
      Run.bind_answered (store_slotAt firstStands _), along_grown rfl,
      Run.bind_answered (store_slotAt ((cellStands 0 (by omega)).written _ _ _) _),
      along_grownRoom rfl,
      Run.bind_answered (store_slotAt (((cellStands 1 (by omega)).written _ _ _).written _ _ _) _)]
    rfl
  · refine ⟨rfl, (cellStands 0 (by omega)).taken, cellSize.ge, ?_, ?_, ?_, roomy, apart, by simp,
      by simp, by unfold most; omega⟩
    · rw [m₄.written_other _ (Or.inr (by omega))]
      exact m₃.written_same _ _ _
    · exact m₄.written_same _ _ _
    · exact ⟨roomy.of_le (by simp), length, by intro i x stands; simp at stands⟩
  · refine ⟨?_, ?_, fun r inside _ i => kept r i inside⟩
    · change m.taken ≤ m.taken + 1 + 1
      omega
    · intro r inside
      change (m₁.grown 72).size r = m.size r
      rw [m₁.grown_size_old 72 (by change r ≠ m.taken + 1; omega), m.grown_size_old 16 (by omega)]

lemma elementAt_zero (p : Pointer) : elementAt p 0 = p.along (listAt 0) := by
  unfold elementAt Pointer.along
  simp

lemma elementAt_along (p : Pointer) (index : Word) :
    (p.along (index * SLOT)).along (listAt 0) = elementAt p index := rfl

def movedRoom (room wanted : ℕ) : ℕ := if 2 * room < wanted then wanted else 2 * room

lemma movedRoom_word {room wanted : ℕ} (small : room ≤ 2 * most) (held : wanted ≤ most) :
    (if (BitVec.ofNat 64 room + BitVec.ofNat 64 room).ult (BitVec.ofNat 64 wanted) then
      BitVec.ofNat 64 wanted else BitVec.ofNat 64 room + BitVec.ofNat 64 room) =
      BitVec.ofNat 64 (movedRoom room wanted) := by
  unfold most at small held
  have doubled : BitVec.ofNat 64 room + BitVec.ofNat 64 room = BitVec.ofNat 64 (2 * room) := by
    rw [← BitVec.ofNat_add, two_mul]
  have compares : (BitVec.ofNat 64 (2 * room)).ult (BitVec.ofNat 64 wanted) =
      decide (2 * room < wanted) := by
    simp only [BitVec.ult, BitVec.toNat_ofNat]
    rw [Nat.mod_eq_of_lt (by omega), Nat.mod_eq_of_lt (by omega)]
  rw [doubled, compares]
  unfold movedRoom
  simp only [decide_eq_true_eq]
  split <;> rfl

lemma moved_spec {m : Memory} {growing list : Pointer} {room wanted : ℕ} {xs : List Slot}
    (grows : Grown m growing list room xs) (past : room < wanted) (held : wanted ≤ most) :
    ∃ m', moved growing list (BitVec.ofNat 64 room) (BitVec.ofNat 64 wanted)
        (BitVec.ofNat 64 xs.length) m = .answered ⟨m.taken, 0⟩ m' ∧
      Grown m' growing ⟨m.taken, 0⟩ (movedRoom room wanted) xs ∧
      Keeps (fun r => r = growing.room) m m' := by
  have small := grows.small
  have within := grows.within
  have enough : room < movedRoom room wanted ∧ movedRoom room wanted ≤ 2 * most := by
    unfold movedRoom
    split <;> omega
  have short : movedRoom room wanted ≤ longest := by
    have := enough.2
    unfold most at this
    unfold longest
    omega
  let first : Pointer := ⟨m.taken, 0⟩
  let m₁ := m.grown (8 * (movedRoom room wanted + 1))
  have grew : ∀ apart, Keeps apart m m₁ := fun apart => Keeps.grown apart m _
  have firstSize : m₁.size first.room = 8 * (movedRoom room wanted + 1) := m.grown_size_new _
  have roomy : Roomy m₁ first (movedRoom room wanted) :=
    ⟨rfl, Nat.lt_succ_self _, firstSize.ge, short⟩
  have listKept := grows.isList.keeps (grew fun _ => False) (fun no => no)
  have listOld := grows.isList.taken
  have cellOld := grows.taken
  have apart : list.room ≠ first.room := by change list.room ≠ m.taken; omega
  have cellApart : growing.room ≠ first.room := by change growing.room ≠ m.taken; omega
  obtain ⟨m₂, copies, taken, size, moves, others⟩ := copySlots_spec 0 0 xs.length
    (by simpa using listKept.toRoomy)
    (by simpa using roomy.of_le (by omega : xs.length ≤ movedRoom room wanted)) apart (by
      intro i inside
      refine ⟨xs[i], ?_⟩
      have stands := listKept.elements i xs[i] (List.getElem?_eq_getElem inside)
      simpa using stands)
  let m₃ := m₂.written first.room 0 (.word (BitVec.ofNat 64 xs.length))
  let m₄ := m₃.written growing.room 0 (.pointer first)
  let m₅ := m₄.written growing.room 1 (.word (BitVec.ofNat 64 (movedRoom room wanted)))
  have sized : ∀ r, m₅.size r = m₁.size r := fun r => congrFun size r
  have tookOne : m₅.taken = m.taken + 1 := taken
  have roomy₂ : Roomy m₂ first (movedRoom room wanted) :=
    ⟨rfl, by rw [taken]; exact roomy.taken, by rw [size]; exact roomy.roomy, short⟩
  have cellStands : ∀ i < 2, Stands m₂ growing.room i := by
    intro i two
    have kept := grows.keeps (grew fun _ => False) (fun no => no) (fun no => no)
    have stands := kept.stands two
    exact ⟨by rw [taken]; exact stands.taken, by rw [size]; exact stands.inside, stands.short⟩
  have kept : ∀ r i, r < m.taken → r ≠ growing.room → m₅.slot r i = m.slot r i := by
    intro r i inside notCell
    have notFirst : r ≠ first.room := by change r ≠ m.taken; omega
    calc m₅.slot r i = m₄.slot r i := m₄.written_other _ (Or.inl notCell)
      _ = m₃.slot r i := m₃.written_other _ (Or.inl notCell)
      _ = m₂.slot r i := m₂.written_other _ (Or.inl notFirst)
      _ = m₁.slot r i := others r i (Or.inl notFirst)
      _ = m.slot r i := m.grown_slot_old _ notFirst i
  have firstKept : ∀ i, m₅.slot first.room i = m₃.slot first.room i := by
    intro i
    calc m₅.slot first.room i = m₄.slot first.room i := m₄.written_other _ (Or.inl cellApart.symm)
      _ = m₃.slot first.room i := m₃.written_other _ (Or.inl cellApart.symm)
  refine ⟨m₅, ?_, ?_, ?_⟩
  · unfold moved
    have takes : roomOf (BitVec.ofNat 64 (movedRoom room wanted) * SLOT + roomForList 0) m =
        .answered first m₁ := by
      unfold roomOf
      rw [bytes_toNat _ short]
    simp only [movedRoom_word small held]
    rw [Run.bind_answered takes]
    rw [show BitVec.ofNat 64 0 = (0 : Word) from rfl, elementAt_zero, elementAt_zero] at copies
    rw [Run.bind_answered copies, along_length rfl,
      Run.bind_answered (store_slotAt (roomy₂.stands (by omega)) _), along_grown grows.front,
      Run.bind_answered (store_slotAt ((cellStands 0 (by omega)).written _ _ _) _),
      along_grownRoom grows.front,
      Run.bind_answered (store_slotAt (((cellStands 1 (by omega)).written _ _ _).written _ _ _) _)]
    rfl
  · have roomy₅ : Roomy m₅ first (movedRoom room wanted) :=
      ⟨rfl, by rw [tookOne]; exact Nat.lt_succ_self _, by rw [sized]; exact firstSize.ge, short⟩
    refine ⟨grows.front, ?_, ?_, ?_, ?_, ⟨?_, ?_, ?_⟩, roomy₅, cellApart.symm, by omega,
      grows.held, enough.2⟩
    · rw [tookOne]
      omega
    · rw [sized, m.grown_size_old _ (by omega)]
      exact grows.inside
    · rw [m₄.written_other _ (Or.inr (by omega))]
      exact m₃.written_same _ _ _
    · exact m₄.written_same _ _ _
    · exact roomy₅.of_le (by omega)
    · rw [firstKept]
      exact m₂.written_same _ _ _
    · intro i x stands
      have inside := (List.getElem?_eq_some_iff.mp stands).1
      rw [firstKept, m₂.written_other _ (Or.inr (by omega))]
      have moved := moves i inside
      simp only [Nat.zero_add] at moved
      rw [moved]
      exact listKept.elements i x stands
  · refine ⟨by omega, ?_, ?_⟩
    · intro r inside
      rw [sized, m.grown_size_old _ (by omega)]
    · intro r inside notCell i
      exact kept r i inside notCell

lemma past_what_a_list_holds {n : ℕ} (small : n < 2 ^ 63) :
    LIST_HOLDS.slt (BitVec.ofNat 64 n) = decide (most < n) := by
  have word : LIST_HOLDS = BitVec.ofNat 64 most := by rfl
  rw [word, slt_ofNat (by unfold most; omega) small]

lemma roomFor_past {m : Memory} {growing list : Pointer} {room : ℕ} {xs : List Slot}
    (status adding : ℕ) (grows : Grown m growing list room xs) (short : adding ≤ longest)
    (past : most < xs.length + adding) :
    roomFor status growing (BitVec.ofNat 64 adding) m = .ended status m := by
  have held := grows.held
  unfold most at held
  unfold longest at short
  unfold roomFor
  rw [along_grown grows.front, along_grownRoom grows.front,
    Run.bind_answered (loadPointer_slotAt (grows.stands (by omega)) grows.grown),
    Run.bind_answered (loadWord_slotAt (grows.stands (by omega)) grows.grownRoom),
    Run.bind_answered grows.isList.length_eq]
  apply Run.bind_ended
  apply abortWhere_true
  rw [← BitVec.ofNat_add, past_what_a_list_holds (by omega)]
  exact decide_eq_true past

def Moved (m : Memory) (list list' : Pointer) (room room' : ℕ) : Prop :=
  (list' = list ∧ room' = room) ∨ (2 * room ≤ room' ∧ m.taken ≤ list'.room)

lemma roomFor_spec {m : Memory} {growing list : Pointer} {room : ℕ} {xs : List Slot}
    (status adding : ℕ) (grows : Grown m growing list room xs) (held : xs.length + adding ≤ most) :
    ∃ list' room' m', roomFor status growing (BitVec.ofNat 64 adding) m =
        .answered (list', BitVec.ofNat 64 xs.length) m' ∧
      Grown m' growing list' room' xs ∧ xs.length + adding ≤ room' ∧
      Moved m list list' room room' ∧ Keeps (fun r => r = growing.room) m m' := by
  have small := grows.small
  have bound := held
  unfold most at bound small
  have opened : roomFor status growing (BitVec.ofNat 64 adding) m =
      (if (BitVec.ofNat 64 (xs.length + adding)).ule (BitVec.ofNat 64 room) then
        pure (list, BitVec.ofNat 64 xs.length)
      else moved growing list (BitVec.ofNat 64 room) (BitVec.ofNat 64 (xs.length + adding))
        (BitVec.ofNat 64 xs.length) >>= fun list => pure (list, BitVec.ofNat 64 xs.length)) m := by
    unfold roomFor
    rw [along_grown grows.front, along_grownRoom grows.front,
      Run.bind_answered (loadPointer_slotAt (grows.stands (by omega)) grows.grown),
      Run.bind_answered (loadWord_slotAt (grows.stands (by omega)) grows.grownRoom),
      Run.bind_answered grows.isList.length_eq]
    unfold abortPastWhatAListHolds
    rw [← BitVec.ofNat_add, past_what_a_list_holds (by omega),
      Run.bind_answered (abortWhere_false (decide_eq_false (not_lt.mpr held)) m)]
  have fits : (BitVec.ofNat 64 (xs.length + adding)).ule (BitVec.ofNat 64 room) =
      decide (xs.length + adding ≤ room) := by
    simp only [BitVec.ule_eq_decide, BitVec.toNat_ofNat]
    rw [Nat.mod_eq_of_lt (by omega), Nat.mod_eq_of_lt (by omega)]
  rw [opened, fits]
  by_cases enough : xs.length + adding ≤ room
  · rw [if_pos (decide_eq_true enough)]
    exact ⟨list, room, m, rfl, grows, enough, Or.inl ⟨rfl, rfl⟩, Keeps.refl _ m⟩
  · rw [if_neg (by simpa using enough)]
    obtain ⟨m', moves, grows', kept⟩ := moved_spec grows (not_le.mp enough) held
    refine ⟨⟨m.taken, 0⟩, _, m', ?_, grows', ?_, Or.inr ⟨?_, le_rfl⟩, kept⟩
    · rw [Run.bind_answered moves]
      rfl
    · unfold movedRoom
      split <;> omega
    · unfold movedRoom
      split <;> omega

lemma Grown.extended {m m₁ : Memory} {growing list : Pointer} {room : ℕ} {xs ys : List Slot}
    (grows : Grown m growing list room xs) (taken : m₁.taken = m.taken) (size : m₁.size = m.size)
    (others : ∀ r i, (r ≠ list.room ∨ i ≤ xs.length) → m₁.slot r i = m.slot r i)
    (written : ∀ i y, ys[i]? = some y → m₁.slot list.room (xs.length + i + 1) = some y)
    (fits : xs.length + ys.length ≤ room) (held : xs.length + ys.length ≤ most) :
    Grown (m₁.written list.room 0 (.word (BitVec.ofNat 64 (xs.length + ys.length)))) growing list
      room (xs ++ ys) := by
  have roomy : Roomy (m₁.written list.room 0 (.word (BitVec.ofNat 64 (xs.length + ys.length))))
      list room := by
    refine ⟨grows.roomy.front, ?_, ?_, grows.roomy.short⟩
    · rw [Memory.written_taken, taken]
      exact grows.roomy.taken
    · rw [Memory.written_size, size]
      exact grows.roomy.roomy
  have cell : ∀ i, (m₁.written list.room 0 (.word (BitVec.ofNat 64 (xs.length + ys.length)))).slot
      growing.room i = m.slot growing.room i := by
    intro i
    rw [Memory.written_other _ _ (Or.inl grows.apart.symm)]
    exact others _ _ (Or.inl grows.apart.symm)
  refine ⟨grows.front, ?_, ?_, ?_, ?_, ⟨?_, ?_, ?_⟩, roomy, grows.apart, ?_, ?_, grows.small⟩
  · rw [Memory.written_taken, taken]
    exact grows.taken
  · rw [Memory.written_size, size]
    exact grows.inside
  · rw [cell]
    exact grows.grown
  · rw [cell]
    exact grows.grownRoom
  · exact roomy.of_le (by simpa using fits)
  · rw [Memory.written_same, List.length_append]
  · intro i x stands
    rw [Memory.written_other _ _ (Or.inr (by omega))]
    by_cases early : i < xs.length
    · rw [others _ _ (Or.inr (by omega))]
      rw [List.getElem?_append_left early] at stands
      exact grows.isList.elements i x stands
    · rw [List.getElem?_append_right (by omega)] at stands
      have there := written _ x stands
      rwa [show xs.length + (i - xs.length) + 1 = i + 1 by omega] at there
  · simpa using fits
  · simpa using held

/-- What a step does to what is grown: the run ends and nothing is touched where a list would hold
    more than a list holds, and otherwise the elements are added and nothing but what is grown is
    touched. -/
def Adds (status : ℕ) (growing list : Pointer) (room : ℕ) (xs ys : List Slot) (m : Memory)
    (step : Run Unit) : Prop :=
  if most < xs.length + ys.length then step m = .ended status m
  else ∃ list' room' m', step m = .answered () m' ∧ Grown m' growing list' room' (xs ++ ys) ∧
    Moved m list list' room room' ∧ Keeps (fun r => r = growing.room ∨ r = list.room) m m'

lemma keeps_of_extended {m m' m₁ : Memory} {growing list list' : Pointer} {room room' : ℕ}
    {held : Slot} (placed : Moved m list list' room room')
    (kept : Keeps (fun r => r = growing.room) m m') (taken : m₁.taken = m'.taken)
    (size : m₁.size = m'.size) (others : ∀ r i, r ≠ list'.room → m₁.slot r i = m'.slot r i) :
    Keeps (fun r => r = growing.room ∨ r = list.room) m (m₁.written list'.room 0 held) := by
  have old : ∀ r < m.taken, r ≠ list.room → r ≠ list'.room := by
    intro r inside notList
    rcases placed with ⟨same, -⟩ | ⟨-, new⟩
    · rw [same]
      exact notList
    · omega
  refine ⟨?_, ?_, ?_⟩
  · rw [Memory.written_taken, taken]
    exact kept.taken
  · intro r inside
    rw [Memory.written_size, size]
    exact kept.size r inside
  · intro r inside apart i
    have notList := old r inside (fun same => apart (Or.inr same))
    rw [Memory.written_other _ _ (Or.inl notList), others r i notList]
    exact kept.slot r inside (fun same => apart (Or.inl same)) i

lemma add_adds {m : Memory} {growing list : Pointer} {room : ℕ} {xs : List Slot} (status : ℕ)
    (grows : Grown m growing list room xs) (value : Slot) :
    Adds status growing list room xs [value] m (add status growing value) := by
  unfold Adds
  split
  · rename_i past
    unfold add
    exact Run.bind_ended (roomFor_past status 1 grows (by unfold longest; omega) past)
  · rename_i fits
    obtain ⟨list', room', m', ready, grows', enough, placed, kept⟩ :=
      roomFor_spec status 1 grows (not_lt.mp fits)
    have stored := grows'.roomy.store_element (i := xs.length) (by omega) value
    let m₁ := m'.written list'.room (xs.length + 1) value
    refine ⟨list', room', _, ?_, @Grown.extended _ m₁ _ _ _ _ _ grows' rfl rfl ?_ ?_ enough
      (not_lt.mp fits), placed, keeps_of_extended placed kept rfl rfl ?_⟩
    · unfold add
      rw [show (1 : Word) = BitVec.ofNat 64 1 from rfl, Run.bind_answered ready]
      simp only [elementAt_along]
      rw [Run.bind_answered stored, along_length grows'.roomy.front, ← BitVec.ofNat_add]
      exact store_slotAt ((grows'.roomy.stands (by omega)).written _ _ _) _
    · intro r i other
      exact m'.written_other _ (by omega)
    · intro i y stands
      obtain ⟨inside, rfl⟩ := List.getElem?_eq_some_iff.mp stands
      have first : i = 0 := by simpa using inside
      subst first
      exact m'.written_same _ _ _
    · intro r i notList
      exact m'.written_other _ (Or.inl notList)

lemma addAll_adds {m : Memory} {growing list added : Pointer} {room : ℕ} {xs ys : List Slot}
    (status : ℕ) (grows : Grown m growing list room xs) (handed : IsList m added ys)
    (notCell : added.room ≠ growing.room) (notList : added.room ≠ list.room) :
    Adds status growing list room xs ys m (addAll status growing added) := by
  unfold Adds
  split
  · rename_i past
    unfold addAll
    rw [Run.bind_answered handed.length_eq]
    exact Run.bind_ended (roomFor_past status ys.length grows handed.short past)
  · rename_i fits
    obtain ⟨list', room', m', ready, grows', enough, placed, kept⟩ :=
      roomFor_spec status ys.length grows (not_lt.mp fits)
    have handed' := handed.keeps kept notCell
    have apart : added.room ≠ list'.room := by
      rcases placed with ⟨same, -⟩ | ⟨-, new⟩
      · rw [same]
        exact notList
      · have old := handed.taken
        omega
    obtain ⟨m₁, copies, taken, size, moves, others⟩ := copySlots_spec 0 xs.length
      ys.length (by simpa using handed'.toRoomy)
      (grows'.roomy.of_le enough) apart (by
        intro i inside
        have stands := handed'.elements i ys[i] (List.getElem?_eq_getElem inside)
        exact ⟨ys[i], by simpa using stands⟩)
    refine ⟨list', room', _, ?_, @Grown.extended _ m₁ _ _ _ _ _ grows' taken size ?_ ?_ enough
      (not_lt.mp fits), placed, keeps_of_extended placed kept taken size ?_⟩
    · unfold addAll
      rw [Run.bind_answered handed.length_eq, Run.bind_answered ready]
      rw [show BitVec.ofNat 64 0 = (0 : Word) from rfl, elementAt_zero] at copies
      simp only [elementAt_along]
      rw [Run.bind_answered copies, along_length grows'.roomy.front, ← BitVec.ofNat_add]
      have stands := grows'.roomy.stands (i := 0) (by omega)
      exact store_slotAt ⟨by rw [taken]; exact stands.taken, by rw [size]; exact stands.inside,
        stands.short⟩ _
    · intro r i other
      exact others r i (by omega)
    · intro i y stands
      have inside := (List.getElem?_eq_some_iff.mp stands).1
      have moved := moves i inside
      rw [moved, Nat.zero_add]
      exact handed'.elements i y stands
    · intro r i notThere
      exact others r i (Or.inl notThere)

/-- What is reached from a start by adding, step after step, whatever is made and written elsewhere
    between the steps: the elements added so far, and the memory. -/
inductive Ran (status : ℕ) (growing : Pointer) : List Slot → Memory → Prop
  | start {m m' : Memory} (started : start m = .answered growing m') : Ran status growing [] m'
  | elsewhere {xs : List Slot} {m m' : Memory} {list : Pointer} (ran : Ran status growing xs m)
    (held : sealed growing m = .answered list m)
    (kept : Keeps (fun r => r ≠ growing.room ∧ r ≠ list.room) m m') : Ran status growing xs m'
  | add {xs : List Slot} {m m' : Memory} {value : Slot} (ran : Ran status growing xs m)
    (added : add status growing value m = .answered () m') : Ran status growing (xs ++ [value]) m'
  | addAll {xs ys : List Slot} {m m' : Memory} {list handed : Pointer}
    (ran : Ran status growing xs m) (held : sealed growing m = .answered list m)
    (isList : IsList m handed ys) (notCell : handed.room ≠ growing.room)
    (notList : handed.room ≠ list.room)
    (added : addAll status growing handed m = .answered () m') : Ran status growing (xs ++ ys) m'

lemma Adds.grown {status : ℕ} {growing list : Pointer} {room : ℕ} {xs ys : List Slot}
    {m m' : Memory} {step : Run Unit} (adds : Adds status growing list room xs ys m step)
    (answers : step m = .answered () m') : ∃ list' room', Grown m' growing list' room' (xs ++ ys) := by
  unfold Adds at adds
  split at adds
  · rw [answers] at adds
    cases adds
  · obtain ⟨list', room', m'', answers', grows, -⟩ := adds
    rw [answers] at answers'
    cases answers'
    exact ⟨list', room', grows⟩

/-- Every state reached is of a list grown so far, whose elements are those added in order. -/
lemma Ran.grown {status : ℕ} {growing : Pointer} {xs : List Slot} {m : Memory}
    (ran : Ran status growing xs m) : ∃ list room, Grown m growing list room xs := by
  induction ran with
  | @start m m' started =>
    obtain ⟨growing', list, m'', started', grows, -⟩ := start_spec m
    rw [started] at started'
    cases started'
    exact ⟨list, 8, grows⟩
  | elsewhere _ held kept ih =>
    obtain ⟨list', room, grows⟩ := ih
    rw [grows.sealed_eq] at held
    cases held
    exact ⟨_, room, grows.keeps kept (fun both => both.1 rfl) (fun both => both.2 rfl)⟩
  | @add _ _ _ value _ added ih =>
    obtain ⟨list, room, grows⟩ := ih
    exact (add_adds status grows value).grown added
  | addAll _ held isList notCell notList added ih =>
    obtain ⟨list, room, grows⟩ := ih
    rw [grows.sealed_eq] at held
    cases held
    exact (addAll_adds status grows isList notCell notList).grown added

/-- No word worked out on the way to room for `adding` more elements wraps. -/
def Unwrapped (room length adding : ℕ) : Prop :=
  (BitVec.ofNat 64 length + BitVec.ofNat 64 adding).toInt = length + adding ∧
  (BitVec.ofNat 64 room + BitVec.ofNat 64 room).toInt = room + room ∧
  (length + adding ≤ most →
    (BitVec.ofNat 64 (movedRoom room (length + adding)) * SLOT + roomForList 0).toInt =
      8 * (movedRoom room (length + adding) + 1))

lemma Grown.unwrapped {m : Memory} {growing list : Pointer} {room : ℕ} {xs : List Slot}
    (grows : Grown m growing list room xs) {adding : ℕ} (short : adding ≤ longest) :
    Unwrapped room xs.length adding := by
  have small := grows.small
  have held := grows.held
  unfold longest at short
  unfold most at small held
  refine ⟨?_, ?_, ?_⟩
  · rw [← BitVec.ofNat_add, toInt_ofNat (by omega), Nat.cast_add]
  · rw [← BitVec.ofNat_add, toInt_ofNat (by omega), Nat.cast_add]
  · intro fits
    unfold most at fits
    have few : movedRoom room (xs.length + adding) ≤ 2 ^ 34 := by
      unfold movedRoom
      split <;> omega
    have bytes := bytes_toNat (movedRoom room (xs.length + adding))
      (by unfold longest; omega)
    rw [BitVec.toInt_eq_toNat_of_lt (by omega), bytes]
    push_cast
    ring

/-- What is handed over is everything added, in order, in one list; every step adds its elements
    after what is there or ends the run before any room is taken, exactly where the list would hold
    more than a list holds; the length is at most the room, which a move at least doubles; nothing
    but what is grown is touched; and no word worked out on the way wraps. -/
theorem growing_lists {status : ℕ} {growing : Pointer} {xs : List Slot} {m : Memory}
    (ran : Ran status growing xs m) : ∃ list room,
      sealed growing m = .answered list m ∧ IsList m list xs ∧
      xs.length ≤ room ∧ 8 * (room + 1) ≤ m.size list.room ∧
      (∀ value, Adds status growing list room xs [value] m (add status growing value)) ∧
      (∀ handed ys, IsList m handed ys → handed.room ≠ growing.room → handed.room ≠ list.room →
        Adds status growing list room xs ys m (addAll status growing handed) ∧
        ∀ m', addAll status growing handed m = .answered () m' → IsList m' handed ys) ∧
      ∀ adding ≤ longest, Unwrapped room xs.length adding := by
  obtain ⟨list, room, grows⟩ := ran.grown
  refine ⟨list, room, grows.sealed_eq, grows.isList, grows.within, grows.roomy.roomy,
    add_adds status grows, ?_, fun adding short => grows.unwrapped short⟩
  intro handed ys isList notCell notList
  have adds := addAll_adds status grows isList notCell notList
  refine ⟨adds, ?_⟩
  intro m' answers
  unfold Adds at adds
  split at adds
  · rw [answers] at adds
    cases adds
  · obtain ⟨-, -, m'', answers', -, -, kept⟩ := adds
    rw [answers] at answers'
    cases answers'
    exact isList.keeps kept (not_or.mpr ⟨notCell, notList⟩)

def nine : List Slot := (List.range 9).map fun number => .word (BitVec.ofNat 64 number)

def handedOver : Memory :=
  ⟨1, fun _ => 80, fun _ place => if place = 0 then some (.word 9) else nine[place - 1]?⟩

def seven : Memory :=
  match start handedOver with
  | .answered growing m =>
    match add 3 growing (.word 7) m with
    | .answered () m => m
    | _ => m
  | _ => handedOver

/-- A value added to a new list, then the nine, for which the list is moved into more room. -/
theorem growing_lists_nine : ∃ m list room, Ran 3 ⟨1, 0⟩ [.word 7] seven ∧
    loadWord ((⟨1, 0⟩ : Pointer).along GROWN_ROOM) seven = .answered 8 seven ∧
    addAll 3 ⟨1, 0⟩ ⟨0, 0⟩ seven = .answered () m ∧ sealed ⟨1, 0⟩ m = .answered list m ∧
    IsList m list (.word 7 :: nine) ∧ 10 ≤ room ∧ 8 * (room + 1) ≤ m.size list.room := by
  have ran : Ran 3 ⟨1, 0⟩ [.word 7] seven := .add (.start (m := handedOver) rfl) rfl
  obtain ⟨list, room, held, -, -, -, -, adds, -⟩ := growing_lists ran
  have inRoom : list.room = 2 := by
    cases held
    rfl
  have isList : IsList seven ⟨0, 0⟩ nine :=
    { front := rfl
      taken := by decide
      roomy := by decide
      short := by decide
      length := rfl
      elements := fun place value stands => stands }
  obtain ⟨added, -⟩ := adds ⟨0, 0⟩ nine isList (by decide) (by simp [inRoom])
  unfold Adds at added
  rw [if_neg (by decide)] at added
  obtain ⟨-, -, m, answers, -⟩ := added
  obtain ⟨list', room', held', isList', within, roomy, -⟩ := growing_lists
    (ran.addAll held isList (by decide) (by simp [inRoom]) answers)
  exact ⟨m, list', room', ran, rfl, answers, held', isList', within, roomy⟩

end SoutherNative.Growing
