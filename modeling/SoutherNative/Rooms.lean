import Mathlib

set_option autoImplicit false

/-!
# Rooms

A machine's memory as rooms taken one after another, each of a size in bytes and written and read
in slots of eight. An address is a room and a word of bytes from its front, so adding to one wraps
as the machine's does, and a slot that is not whole inside its room is neither read nor written.
-/
namespace SoutherNative.Rooms

abbrev Word := BitVec 64

/-- An address: a room, and how many bytes from the front of it. -/
structure Pointer where
  room : ℕ
  offset : Word
  deriving DecidableEq

def Pointer.along (p : Pointer) (bytes : Word) : Pointer := { p with offset := p.offset + bytes }

@[simp] lemma Pointer.along_room (p : Pointer) (bytes : Word) : (p.along bytes).room = p.room := rfl

@[simp] lemma Pointer.along_offset (p : Pointer) (bytes : Word) :
    (p.along bytes).offset = p.offset + bytes := rfl

inductive Slot
  | word (word : Word)
  | pointer (pointer : Pointer)
  deriving DecidableEq

/-- How many rooms are taken, how many bytes each is, and what each slot of each holds where it was
    written. -/
structure Memory where
  taken : ℕ
  size : ℕ → ℕ
  slot : ℕ → ℕ → Option Slot

inductive Outcome (α : Type)
  | answered (answer : α) (memory : Memory)
  | ended (status : ℕ) (memory : Memory)
  | astray

def Run (α : Type) : Type := Memory → Outcome α

namespace Run

variable {α β : Type}

instance : Monad Run where
  pure answer := fun memory => .answered answer memory
  bind first next := fun memory =>
    match first memory with
    | .answered answer memory => next answer memory
    | .ended status memory => .ended status memory
    | .astray => .astray

lemma pure_apply (answer : α) (m : Memory) : (pure answer : Run α) m = .answered answer m := rfl

lemma bind_answered {first : Run α} {next : α → Run β} {m m' : Memory} {answer : α}
    (h : first m = .answered answer m') : (first >>= next) m = next answer m' := by
  change (match first m with
    | .answered answer memory => next answer memory
    | .ended status memory => .ended status memory
    | .astray => .astray) = _
  rw [h]

lemma bind_ended {first : Run α} {next : α → Run β} {m m' : Memory} {status : ℕ}
    (h : first m = .ended status m') : (first >>= next) m = .ended status m' := by
  change (match first m with
    | .answered answer memory => next answer memory
    | .ended status memory => .ended status memory
    | .astray => .astray) = _
  rw [h]

end Run

def endRun {α : Type} (status : ℕ) : Run α := fun memory => .ended status memory

def astray {α : Type} : Run α := fun _ => .astray

/-- The run ended with `status` where `condition` holds, and carried on where it does not. -/
def abortWhere (status : ℕ) (condition : Bool) : Run Unit :=
  if condition then endRun status else pure ()

lemma abortWhere_true {status : ℕ} {condition : Bool} (h : condition = true) (m : Memory) :
    abortWhere status condition m = .ended status m := by
  rw [h]
  rfl

lemma abortWhere_false {status : ℕ} {condition : Bool} (h : condition = false) (m : Memory) :
    abortWhere status condition m = .answered () m := by
  rw [h]
  rfl

def Inside (m : Memory) (p : Pointer) : Prop :=
  p.room < m.taken ∧ p.offset.toNat % 8 = 0 ∧ p.offset.toNat + 8 ≤ m.size p.room

instance (m : Memory) (p : Pointer) : Decidable (Inside m p) :=
  inferInstanceAs (Decidable (_ ∧ _ ∧ _))

def load (p : Pointer) : Run Slot := fun m =>
  if Inside m p then
    match m.slot p.room (p.offset.toNat / 8) with
    | some held => .answered held m
    | none => .astray
  else .astray

def Memory.written (m : Memory) (room place : ℕ) (held : Slot) : Memory :=
  { m with slot := fun r i => if r = room ∧ i = place then some held else m.slot r i }

@[simp] lemma Memory.written_taken (m : Memory) (room place : ℕ) (held : Slot) :
    (m.written room place held).taken = m.taken := rfl

@[simp] lemma Memory.written_size (m : Memory) (room place : ℕ) (held : Slot) :
    (m.written room place held).size = m.size := rfl

lemma Memory.written_slot (m : Memory) (room place : ℕ) (held : Slot) (r i : ℕ) :
    (m.written room place held).slot r i =
      if r = room ∧ i = place then some held else m.slot r i := rfl

@[simp] lemma Memory.written_same (m : Memory) (room place : ℕ) (held : Slot) :
    (m.written room place held).slot room place = some held := by
  simp [Memory.written_slot]

lemma Memory.written_other (m : Memory) {room place r i : ℕ} (held : Slot)
    (other : r ≠ room ∨ i ≠ place) : (m.written room place held).slot r i = m.slot r i := by
  rw [Memory.written_slot, if_neg]
  rintro ⟨rfl, rfl⟩
  rcases other with apart | apart <;> exact apart rfl

def store (p : Pointer) (held : Slot) : Run Unit := fun m =>
  if Inside m p then .answered () (m.written p.room (p.offset.toNat / 8) held) else .astray

def Memory.grown (m : Memory) (size : ℕ) : Memory where
  taken := m.taken + 1
  size := fun r => if r = m.taken then size else m.size r
  slot := fun r i => if r = m.taken then none else m.slot r i

def roomOf (bytes : Word) : Run Pointer := fun m =>
  .answered ⟨m.taken, 0⟩ (m.grown bytes.toNat)

lemma Memory.grown_taken (m : Memory) (size : ℕ) : (m.grown size).taken = m.taken + 1 := rfl

@[simp] lemma Memory.grown_size_new (m : Memory) (size : ℕ) :
    (m.grown size).size m.taken = size := by
  simp [Memory.grown]

lemma Memory.grown_size_old (m : Memory) (size : ℕ) {r : ℕ} (old : r ≠ m.taken) :
    (m.grown size).size r = m.size r := by
  simp [Memory.grown, old]

lemma Memory.grown_slot_old (m : Memory) (size : ℕ) {r : ℕ} (old : r ≠ m.taken) (i : ℕ) :
    (m.grown size).slot r i = m.slot r i := by
  simp [Memory.grown, old]

def slotAt (room place : ℕ) : Pointer := ⟨room, BitVec.ofNat 64 (8 * place)⟩

/-- A slot stands inside a room: its bytes end before the room does, and before a word wraps. -/
structure Stands (m : Memory) (room place : ℕ) : Prop where
  taken : room < m.taken
  inside : 8 * place + 8 ≤ m.size room
  short : 8 * place < 2 ^ 64

lemma slotAt_offset {place : ℕ} (short : 8 * place < 2 ^ 64) (room : ℕ) :
    (slotAt room place).offset.toNat = 8 * place := by
  simp only [slotAt, BitVec.toNat_ofNat]
  exact Nat.mod_eq_of_lt short

lemma Stands.within {m : Memory} {room place : ℕ} (stands : Stands m room place) :
    Inside m (slotAt room place) := by
  have offset := slotAt_offset stands.short room
  refine ⟨stands.taken, ?_, ?_⟩
  · rw [offset]
    omega
  · rw [offset]
    exact stands.inside

lemma Stands.written {m : Memory} {room place : ℕ} (stands : Stands m room place) (r i : ℕ)
    (held : Slot) : Stands (m.written r i held) room place :=
  ⟨stands.taken, stands.inside, stands.short⟩

lemma load_slotAt {m : Memory} {room place : ℕ} (stands : Stands m room place) {held : Slot}
    (holds : m.slot room place = some held) : load (slotAt room place) m = .answered held m := by
  have offset := slotAt_offset stands.short room
  unfold load
  rw [if_pos stands.within, offset, Nat.mul_div_cancel_left _ (by omega)]
  change (match m.slot room place with
    | some held => Outcome.answered held m
    | none => .astray) = _
  rw [holds]

lemma store_slotAt {m : Memory} {room place : ℕ} (stands : Stands m room place) (held : Slot) :
    store (slotAt room place) held m = .answered () (m.written room place held) := by
  have offset := slotAt_offset stands.short room
  unfold store
  rw [if_pos stands.within, offset, Nat.mul_div_cancel_left _ (by omega)]
  rfl

/-- An index below another does not wrap when it is moved on. -/
lemma toInt_next {place count : Word} (less : place.toInt < count.toInt) :
    (place + 1).toInt = place.toInt + 1 := by
  have most := count.toInt_lt
  have least := place.le_toInt
  rw [BitVec.toInt_add]
  have one : (1 : Word).toInt = 1 := by decide
  rw [one]
  apply Int.bmod_eq_of_le <;> norm_num at * <;> omega

/-- `body` run once for each index from `place` up to `count`, both read with a sign. -/
def eachFrom (count place : Word) (body : Word → Run Unit) : Run Unit :=
  if place.slt count then do
    body place
    eachFrom count (place + 1) body
  else pure ()
termination_by (count.toInt - place.toInt).toNat
decreasing_by
  rename_i below
  have less : place.toInt < count.toInt := by simpa [BitVec.slt] using below
  have next := toInt_next less
  omega

/-- `body` run once for each index from nought up to `count`, in order, and none where `count` is
    nought or below. -/
def each (count : Word) (body : Word → Run Unit) : Run Unit := eachFrom count 0 body

lemma toInt_ofNat {n : ℕ} (small : n < 2 ^ 63) : (BitVec.ofNat 64 n).toInt = n := by
  rw [BitVec.toInt_ofNat']
  apply Int.bmod_eq_of_le
  · omega
  · omega

lemma slt_ofNat {a b : ℕ} (ha : a < 2 ^ 63) (hb : b < 2 ^ 63) :
    (BitVec.ofNat 64 a).slt (BitVec.ofNat 64 b) = decide (a < b) := by
  simp [BitVec.slt, toInt_ofNat ha, toInt_ofNat hb]

lemma eachFrom_rule {n : ℕ} (small : n < 2 ^ 63) {body : Word → Run Unit} {I : ℕ → Memory → Prop}
    (step : ∀ i < n, ∀ m, I i m → ∃ m', body (BitVec.ofNat 64 i) m = .answered () m' ∧ I (i + 1) m') :
    ∀ left i, i + left = n → ∀ m, I i m →
      ∃ m', eachFrom (BitVec.ofNat 64 n) (BitVec.ofNat 64 i) body m = .answered () m' ∧ I n m' := by
  intro left
  induction left with
  | zero =>
    intro i ends m holds
    have same : i = n := by omega
    subst same
    refine ⟨m, ?_, holds⟩
    rw [eachFrom, slt_ofNat small small]
    simp [Run.pure_apply]
  | succ left ih =>
    intro i ends m holds
    obtain ⟨m', ran, holds'⟩ := step i (by omega) m holds
    obtain ⟨m'', rest, holds''⟩ := ih (i + 1) (by omega) m' holds'
    refine ⟨m'', ?_, holds''⟩
    rw [eachFrom, slt_ofNat (by omega) small, if_pos (by simpa using (by omega : i < n)),
      Run.bind_answered ran]
    rw [show BitVec.ofNat 64 i + 1 = BitVec.ofNat 64 (i + 1) from (BitVec.ofNat_add i 1).symm]
    exact rest

/-- A loop over an index keeps what each round of it keeps. -/
lemma each_rule {n : ℕ} (small : n < 2 ^ 63) (body : Word → Run Unit) (I : ℕ → Memory → Prop)
    (step : ∀ i < n, ∀ m, I i m → ∃ m', body (BitVec.ofNat 64 i) m = .answered () m' ∧ I (i + 1) m')
    {m : Memory} (start : I 0 m) :
    ∃ m', each (BitVec.ofNat 64 n) body m = .answered () m' ∧ I n m' :=
  eachFrom_rule small step n 0 (by omega) m start

/-- `body` run once for each index from `place` up to `count`, handed what the round before it
    left. -/
def eachWithFrom {σ : Type} (count place : Word) (body : Word → σ → Run σ) (held : σ) : Run σ :=
  if place.slt count then do
    let held ← body place held
    eachWithFrom count (place + 1) body held
  else pure held
termination_by (count.toInt - place.toInt).toNat
decreasing_by
  rename_i below
  have less : place.toInt < count.toInt := by simpa [BitVec.slt] using below
  have next := toInt_next less
  omega

def eachWith {σ : Type} (count : Word) (body : Word → σ → Run σ) (held : σ) : Run σ :=
  eachWithFrom count 0 body held

lemma eachWithFrom_rule {σ : Type} {n : ℕ} (small : n < 2 ^ 63) {body : Word → σ → Run σ}
    {I : ℕ → σ → Memory → Prop}
    (step : ∀ i < n, ∀ s m, I i s m →
      ∃ s' m', body (BitVec.ofNat 64 i) s m = .answered s' m' ∧ I (i + 1) s' m') :
    ∀ left i, i + left = n → ∀ s m, I i s m → ∃ s' m',
      eachWithFrom (BitVec.ofNat 64 n) (BitVec.ofNat 64 i) body s m = .answered s' m' ∧
        I n s' m' := by
  intro left
  induction left with
  | zero =>
    intro i ends s m holds
    have same : i = n := by omega
    subst same
    refine ⟨s, m, ?_, holds⟩
    rw [eachWithFrom, slt_ofNat small small]
    simp [Run.pure_apply]
  | succ left ih =>
    intro i ends s m holds
    obtain ⟨s', m', ran, holds'⟩ := step i (by omega) s m holds
    obtain ⟨s'', m'', rest, holds''⟩ := ih (i + 1) (by omega) s' m' holds'
    refine ⟨s'', m'', ?_, holds''⟩
    rw [eachWithFrom, slt_ofNat (by omega) small, if_pos (by simpa using (by omega : i < n)),
      Run.bind_answered ran]
    rw [show BitVec.ofNat 64 i + 1 = BitVec.ofNat 64 (i + 1) from (BitVec.ofNat_add i 1).symm]
    exact rest

lemma eachWith_rule {σ : Type} {n : ℕ} (small : n < 2 ^ 63) (body : Word → σ → Run σ)
    (I : ℕ → σ → Memory → Prop)
    (step : ∀ i < n, ∀ s m, I i s m →
      ∃ s' m', body (BitVec.ofNat 64 i) s m = .answered s' m' ∧ I (i + 1) s' m')
    {s : σ} {m : Memory} (start : I 0 s m) :
    ∃ s' m', eachWith (BitVec.ofNat 64 n) body s m = .answered s' m' ∧ I n s' m' :=
  eachWithFrom_rule small step n 0 (by omega) s m start

end SoutherNative.Rooms
