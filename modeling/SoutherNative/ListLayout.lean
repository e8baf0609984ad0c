import SoutherNative.Rooms

set_option autoImplicit false

/-!
# Lists in memory

A list is a room holding how many elements it has and then the elements, a slot each. What walks
one reads and writes its slots through an index.
-/
namespace SoutherNative.ListLayout
open Rooms

def SLOT : Word := 8

def LIST_LENGTH : Word := 0

def LIST_ELEMENTS : Word := SLOT

def listAt (index : Word) : Word := LIST_ELEMENTS + SLOT * index

def roomForList (elements : Word) : Word := listAt elements

def LIST_HOLDS : Word := 2 ^ 31 - 1

def asWord : Slot → Run Word
  | .word w => pure w
  | .pointer _ => astray

def asPointer : Slot → Run Pointer
  | .pointer p => pure p
  | .word _ => astray

def loadWord (p : Pointer) : Run Word := load p >>= asWord

def loadPointer (p : Pointer) : Run Pointer := load p >>= asPointer

def length (list : Pointer) : Run Word := loadWord (list.along LIST_LENGTH)

def elementAt (list : Pointer) (index : Word) : Pointer :=
  (list.along (index * SLOT)).along (listAt 0)

/-- A list of `count` elements, with its length written and its elements not yet. -/
def newList (count : Word) : Run Pointer := do
  let slots := count * SLOT
  let bytes := slots + roomForList 0
  let made ← roomOf bytes
  store (made.along LIST_LENGTH) (.word count)
  return made

/-- `count` slots from `source` onwards copied to `target` onwards, one at a time and in order. -/
def copySlots (source target : Pointer) (count : Word) : Run Unit :=
  each count fun place => do
    let slot ← load (source.along (place * SLOT))
    store (target.along (place * SLOT)) slot

/-- The run ended with `status` where a list of `length` elements is more than a list holds. -/
def abortPastWhatAListHolds (status : ℕ) (length : Word) : Run Unit :=
  abortWhere status (LIST_HOLDS.slt length)

/-- A new list holding what `list`, `count` long, holds. -/
def copied (list : Pointer) (count : Word) : Run Pointer := do
  let made ← newList count
  copySlots (list.along (listAt 0)) (made.along (listAt 0)) count
  return made

def longest : ℕ := 2 ^ 59

/-- A room with the places of a list of `count` elements in it. -/
structure Roomy (m : Memory) (p : Pointer) (count : ℕ) : Prop where
  front : p.offset = 0
  taken : p.room < m.taken
  roomy : 8 * (count + 1) ≤ m.size p.room
  short : count ≤ longest

def Elements (m : Memory) (p : Pointer) (xs : List Slot) : Prop :=
  ∀ i x, xs[i]? = some x → m.slot p.room (i + 1) = some x

/-- A list in memory. -/
structure IsList (m : Memory) (p : Pointer) (xs : List Slot) : Prop extends
    Roomy m p xs.length where
  length : m.slot p.room 0 = some (.word (BitVec.ofNat 64 xs.length))
  elements : Elements m p xs

@[simp] lemma toNat_eight : (8 : Word).toNat = 8 := rfl

lemma elementAt_eq {p : Pointer} (front : p.offset = 0) {i : ℕ} :
    elementAt p (BitVec.ofNat 64 i) = slotAt p.room (i + 1) := by
  unfold elementAt slotAt Pointer.along
  simp only [front, Pointer.mk.injEq, true_and]
  apply BitVec.eq_of_toNat_eq
  simp [listAt, LIST_ELEMENTS, SLOT]
  omega

lemma along_length {p : Pointer} (front : p.offset = 0) :
    p.along LIST_LENGTH = slotAt p.room 0 := by
  unfold slotAt Pointer.along LIST_LENGTH
  simp [front]

lemma Roomy.stands {m : Memory} {p : Pointer} {count : ℕ} (roomy : Roomy m p count) {i : ℕ}
    (inside : i ≤ count) : Stands m p.room i := by
  have taken := roomy.taken
  have room := roomy.roomy
  have short := roomy.short
  unfold longest at short
  exact ⟨taken, by omega, by omega⟩

lemma Roomy.of_le {m : Memory} {p : Pointer} {count fewer : ℕ} (roomy : Roomy m p count)
    (le : fewer ≤ count) : Roomy m p fewer := by
  have room := roomy.roomy
  have short := roomy.short
  exact ⟨roomy.front, roomy.taken, by omega, by omega⟩

lemma Roomy.written {m : Memory} {p : Pointer} {count : ℕ} (roomy : Roomy m p count)
    (room place : ℕ) (held : Slot) : Roomy (m.written room place held) p count :=
  ⟨roomy.front, roomy.taken, roomy.roomy, roomy.short⟩

lemma Roomy.load_element {m : Memory} {p : Pointer} {count : ℕ} (roomy : Roomy m p count) {i : ℕ}
    (inside : i < count) {held : Slot} (holds : m.slot p.room (i + 1) = some held) :
    load (elementAt p (BitVec.ofNat 64 i)) m = .answered held m := by
  rw [elementAt_eq roomy.front]
  exact load_slotAt (roomy.stands (by omega)) holds

lemma Roomy.store_element {m : Memory} {p : Pointer} {count : ℕ} (roomy : Roomy m p count) {i : ℕ}
    (inside : i < count) (held : Slot) :
    store (elementAt p (BitVec.ofNat 64 i)) held m =
      .answered () (m.written p.room (i + 1) held) := by
  rw [elementAt_eq roomy.front]
  exact store_slotAt (roomy.stands (by omega)) held

lemma loadWord_slotAt {m : Memory} {room place : ℕ} (stands : Stands m room place) {w : Word}
    (holds : m.slot room place = some (.word w)) :
    loadWord (slotAt room place) m = .answered w m := by
  unfold loadWord
  rw [Run.bind_answered (load_slotAt stands holds)]
  rfl

lemma loadPointer_slotAt {m : Memory} {room place : ℕ} (stands : Stands m room place) {p : Pointer}
    (holds : m.slot room place = some (.pointer p)) :
    loadPointer (slotAt room place) m = .answered p m := by
  unfold loadPointer
  rw [Run.bind_answered (load_slotAt stands holds)]
  rfl

lemma IsList.length_eq {m : Memory} {p : Pointer} {xs : List Slot} (list : IsList m p xs) :
    ListLayout.length p m = .answered (BitVec.ofNat 64 xs.length) m := by
  unfold ListLayout.length
  rw [along_length list.front]
  exact loadWord_slotAt (list.toRoomy.stands (by omega)) list.length

/-- Every room taken is as it was, but for those `apart` from the ones kept. -/
structure Keeps (apart : ℕ → Prop) (m m' : Memory) : Prop where
  taken : m.taken ≤ m'.taken
  size : ∀ r < m.taken, m'.size r = m.size r
  slot : ∀ r < m.taken, ¬apart r → ∀ i, m'.slot r i = m.slot r i

lemma Keeps.refl (apart : ℕ → Prop) (m : Memory) : Keeps apart m m :=
  ⟨le_rfl, fun _ _ => rfl, fun _ _ _ _ => rfl⟩

/-- What comes after may touch what was not there before. -/
lemma Keeps.andThen {apart later : ℕ → Prop} {m m' m'' : Memory} (first : Keeps apart m m')
    (within : ∀ r < m.taken, later r → apart r) (second : Keeps later m' m'') :
    Keeps apart m m'' where
  taken := first.taken.trans second.taken
  size r inside := by
    have further := first.taken
    rw [second.size r (by omega), first.size r inside]
  slot r inside kept i := by
    have further := first.taken
    rw [second.slot r (by omega) fun there => kept (within r inside there), first.slot r inside kept]

lemma Keeps.trans {apart : ℕ → Prop} {m m' m'' : Memory} (first : Keeps apart m m')
    (second : Keeps apart m' m'') : Keeps apart m m'' :=
  first.andThen (fun _ _ => id) second

lemma Keeps.written {apart : ℕ → Prop} {m : Memory} {room : ℕ} (there : apart room) (place : ℕ)
    (held : Slot) : Keeps apart m (m.written room place held) where
  taken := le_rfl
  size _ _ := rfl
  slot r _ kept i := by
    apply Memory.written_other
    left
    rintro rfl
    exact kept there

lemma Keeps.mono {apart wider : ℕ → Prop} {m m' : Memory} (within : ∀ r < m.taken, apart r → wider r)
    (keeps : Keeps apart m m') : Keeps wider m m' where
  taken := keeps.taken
  size := keeps.size
  slot r inside kept i := keeps.slot r inside (fun there => kept (within r inside there)) i

lemma Keeps.grown (apart : ℕ → Prop) (m : Memory) (size : ℕ) : Keeps apart m (m.grown size) where
  taken := by
    rw [Memory.grown_taken]
    omega
  size _ inside := m.grown_size_old size (by omega)
  slot _ inside _ i := m.grown_slot_old size (by omega) i

lemma Roomy.keeps {apart : ℕ → Prop} {m m' : Memory} {p : Pointer} {count : ℕ}
    (roomy : Roomy m p count) (keeps : Keeps apart m m') : Roomy m' p count where
  front := roomy.front
  taken := lt_of_lt_of_le roomy.taken keeps.taken
  roomy := by
    rw [keeps.size _ roomy.taken]
    exact roomy.roomy
  short := roomy.short

lemma Elements.keeps {apart : ℕ → Prop} {m m' : Memory} {p : Pointer} {xs : List Slot}
    (elements : Elements m p xs) (keeps : Keeps apart m m') (taken : p.room < m.taken)
    (kept : ¬apart p.room) : Elements m' p xs := by
  intro i x stands
  rw [keeps.slot _ taken kept]
  exact elements i x stands

lemma IsList.keeps {apart : ℕ → Prop} {m m' : Memory} {p : Pointer} {xs : List Slot}
    (list : IsList m p xs) (keeps : Keeps apart m m') (kept : ¬apart p.room) : IsList m' p xs where
  toRoomy := list.toRoomy.keeps keeps
  length := by
    rw [keeps.slot _ list.taken kept]
    exact list.length
  elements := list.elements.keeps keeps list.taken kept

/-- How many bytes a list takes, worked out in words. -/
lemma bytes_toNat (count : ℕ) (short : count ≤ longest) :
    (BitVec.ofNat 64 count * SLOT + roomForList 0).toNat = 8 * (count + 1) := by
  unfold longest at short
  simp [roomForList, listAt, LIST_ELEMENTS, SLOT]
  omega

/-- A new list is in a room of its own, as long as it says, and nothing else is touched. -/
lemma newList_spec {count : ℕ} (short : count ≤ longest) (m : Memory) :
    ∃ m', newList (BitVec.ofNat 64 count) m = .answered ⟨m.taken, 0⟩ m' ∧
      Roomy m' ⟨m.taken, 0⟩ count ∧ m'.taken = m.taken + 1 ∧
      m'.slot m.taken 0 = some (.word (BitVec.ofNat 64 count)) ∧
      ∀ apart, Keeps apart m m' := by
  have bytes := bytes_toNat count short
  have roomy : Roomy (m.grown (8 * (count + 1))) ⟨m.taken, 0⟩ count := by
    refine ⟨rfl, ?_, ?_, short⟩
    · exact Nat.lt_succ_self m.taken
    · rw [Memory.grown_size_new]
  refine ⟨(m.grown (8 * (count + 1))).written m.taken 0 (.word (BitVec.ofNat 64 count)),
    ?_, roomy.written _ _ _, rfl, Memory.written_same _ _ _ _, ?_⟩
  · unfold newList
    have taken : roomOf (BitVec.ofNat 64 count * SLOT + roomForList 0) m =
        .answered ⟨m.taken, 0⟩ (m.grown (8 * (count + 1))) := by
      unfold roomOf
      rw [bytes]
    rw [Run.bind_answered taken]
    have stored := store_slotAt (roomy.stands (i := 0) (by omega))
      (.word (BitVec.ofNat 64 count))
    rw [along_length rfl, Run.bind_answered stored]
    rfl
  · intro apart
    have first := Keeps.grown apart m (8 * (count + 1))
    refine ⟨first.taken, fun r inside => first.size r inside, ?_⟩
    intro r inside kept i
    rw [Memory.written_other _ _ (Or.inl (by omega))]
    exact first.slot r inside kept i

/-- Copying slots moves them and touches nothing past them. -/
lemma copySlots_spec (behind into count : ℕ) {m : Memory} {p q : Pointer}
    (source : Roomy m p (behind + count)) (target : Roomy m q (into + count))
    (apart : p.room ≠ q.room)
    (written : ∀ i < count, ∃ held, m.slot p.room (behind + i + 1) = some held) :
    ∃ m', copySlots (elementAt p (BitVec.ofNat 64 behind)) (elementAt q (BitVec.ofNat 64 into))
        (BitVec.ofNat 64 count) m = .answered () m' ∧
      m'.taken = m.taken ∧ m'.size = m.size ∧
      (∀ i < count, m'.slot q.room (into + i + 1) = m.slot p.room (behind + i + 1)) ∧
      ∀ r i, (r ≠ q.room ∨ i ≤ into ∨ into + count < i) → m'.slot r i = m.slot r i := by
  have short := target.short
  unfold longest at short
  have places : ∀ (r : Pointer) (base i : ℕ), r.offset = 0 →
      (elementAt r (BitVec.ofNat 64 base)).along (BitVec.ofNat 64 i * SLOT) =
        slotAt r.room (base + i + 1) := by
    intro r base i front
    rw [← elementAt_eq front, BitVec.ofNat_add]
    unfold elementAt Pointer.along
    simp only [Pointer.mk.injEq, true_and, SLOT]
    ring
  have loop := each_rule (n := count) (by omega)
    (fun place => do
      let slot ← load ((elementAt p (BitVec.ofNat 64 behind)).along (place * SLOT))
      store ((elementAt q (BitVec.ofNat 64 into)).along (place * SLOT)) slot)
    (fun done m' => m'.taken = m.taken ∧ m'.size = m.size ∧
      (∀ i < done, m'.slot q.room (into + i + 1) = m.slot p.room (behind + i + 1)) ∧
      ∀ r i, (r ≠ q.room ∨ i ≤ into ∨ into + done < i) → m'.slot r i = m.slot r i)
    ?_ (m := m) ⟨rfl, rfl, by simp, fun _ _ _ => rfl⟩
  · obtain ⟨m', ran, taken, size, moved, kept⟩ := loop
    exact ⟨m', ran, taken, size, moved, kept⟩
  · rintro i inside m' ⟨taken, size, moved, kept⟩
    obtain ⟨held, holds⟩ := written i inside
    have there : m'.slot p.room (behind + i + 1) = some held := by
      rw [kept _ _ (Or.inl apart)]
      exact holds
    have same : Keeps (fun _ => True) m m' :=
      ⟨by omega, fun r _ => by rw [size], fun _ _ no => absurd trivial no⟩
    have read := load_slotAt ((source.keeps same).stands (i := behind + i + 1) (by omega)) there
    have put := store_slotAt ((target.keeps same).stands (i := into + i + 1) (by omega)) held
    refine ⟨m'.written q.room (into + i + 1) held, ?_, taken, size, ?_, ?_⟩
    · simp only [places p behind i source.front, places q into i target.front]
      rw [Run.bind_answered read]
      exact put
    · intro j before
      by_cases last : j = i
      · subst last
        rw [Memory.written_same, holds]
      · rw [Memory.written_other _ _ (Or.inr (by omega))]
        exact moved j (by omega)
    · intro r j other
      rw [Memory.written_other]
      · exact kept r j (by omega)
      · omega

end SoutherNative.ListLayout
