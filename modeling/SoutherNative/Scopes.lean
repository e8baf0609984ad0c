import Mathlib

set_option autoImplicit false

/-!
# Room and the scopes it is taken in

A thread's arena, counted in slots, and the scopes open on it. A block is never moved and is given
back only past the mark of the scope that closes, which is what a host holding a room relies on.
Blocks and scopes stand newest first here.
-/
namespace SoutherNative.Scopes

def SLOT : ℕ := 8

def BLOCK : ℕ := 2 ^ 17

structure Block where
  base : ℕ
  capacity : ℕ
  len : ℕ

def Block.shape (block : Block) : ℕ × ℕ := (block.base, block.capacity)

/-- The library's own allocator, as a vector made with a capacity asks it: room for at least as many
    slots, where a slot may stand, and apart from the blocks that are held. -/
structure Allocator where
  capacity : ℕ → ℕ
  roomy : ∀ wanted, wanted ≤ capacity wanted
  place : List Block → ℕ → ℕ
  aligned : ∀ blocks wanted, SLOT ∣ place blocks wanted
  apart : ∀ blocks wanted, ∀ block ∈ blocks,
    place blocks wanted + SLOT * capacity wanted ≤ block.base ∨
      block.base + SLOT * block.capacity ≤ place blocks wanted

structure Arena where
  blocks : List Block
  taken : ℕ

def Arena.new : Arena := ⟨[], 0⟩

def slots (size : ℕ) : ℕ := max ((size + SLOT - 1) / SLOT) 1

def left : List Block → ℕ
  | [] => 0
  | block :: _ => block.capacity - block.len

/-- The blocks, with a new one where the last has no room for `wanted` slots. -/
def made (allocator : Allocator) (blocks : List Block) (wanted : ℕ) : List Block :=
  if left blocks < wanted then
    let asked := max wanted BLOCK
    ⟨allocator.place blocks asked, allocator.capacity asked, 0⟩ :: blocks
  else blocks

/-- Room for `size` bytes, and where it stands. -/
def Arena.room (allocator : Allocator) (arena : Arena) (size : ℕ) : Option (Arena × ℕ) :=
  let wanted := slots size
  match made allocator arena.blocks wanted with
  | [] => none
  | block :: blocks =>
    some (⟨{ block with len := block.len + wanted } :: blocks, arena.taken + wanted⟩,
      block.base + SLOT * block.len)

/-- The loop of `reset`, from these blocks and so many slots taken. -/
def resetFrom (mark : ℕ) : List Block → ℕ → Arena
  | [], taken => if taken > mark then ⟨[], 0⟩ else ⟨[], taken⟩
  | block :: blocks, taken =>
    if taken > mark then
      if taken - block.len ≥ mark then resetFrom mark blocks (taken - block.len)
      else ⟨{ block with len := block.len - (taken - mark) } :: blocks, mark⟩
    else ⟨block :: blocks, taken⟩

/-- Drops everything taken since `mark`. -/
def Arena.reset (arena : Arena) (mark : ℕ) : Arena := resetFrom mark arena.blocks arena.taken

/-- A thread: its arena, the scopes open on it with where the arena stood at each, and the token the
    next scope of any thread is answered with. -/
structure Thread where
  arena : Arena
  scopes : List (BitVec 64 × ℕ)
  tokens : BitVec 64

def Thread.new (tokens : BitVec 64) : Thread := ⟨.new, [], tokens⟩

def scopeOpen (thread : Thread) : Thread × BitVec 64 :=
  ({ thread with
      scopes := (thread.tokens, thread.arena.taken) :: thread.scopes
      tokens := thread.tokens + 1 }, thread.tokens)

def alloc (allocator : Allocator) (thread : Thread) (size : ℤ) : Option (Thread × ℕ) :=
  if size < 0 then none
  else (thread.arena.room allocator size.toNat).map (fun it => ({ thread with arena := it.1 }, it.2))

def scopeClose (thread : Thread) (scope : BitVec 64) : Thread × Bool :=
  match thread.scopes with
  | [] => (thread, false)
  | (token, stood) :: scopes =>
    if token = scope then
      ({ thread with arena := thread.arena.reset stood, scopes := scopes }, true)
    else (thread, false)

def arenaTaken (thread : Thread) : ℕ := thread.arena.taken

inductive Call
  | scopeOpen
  | alloc (size : ℤ)
  | scopeClose (scope : BitVec 64)
  | elsewhere

structure Room where
  place : ℕ
  size : ℕ

def Room.slots (room : Room) : ℕ := Scopes.slots room.size

def Room.ends (room : Room) : ℕ := room.place + SLOT * room.slots

/-- A scope a host has open: its token, what `arenaTaken` answered as it was opened, and the rooms
    taken since that no scope inside it has dropped, the newest first. -/
structure Frame where
  token : BitVec 64
  stood : ℕ
  rooms : List Room

structure Ledger where
  frames : List Frame
  outside : List Room

def roomsOf (frames : List Frame) (outside : List Room) : List Room :=
  frames.flatMap Frame.rooms ++ outside

def Ledger.live (ledger : Ledger) : List Room := roomsOf ledger.frames ledger.outside

def Ledger.took (ledger : Ledger) (room : Room) : Ledger :=
  match ledger.frames with
  | [] => { ledger with outside := room :: ledger.outside }
  | frame :: frames => { ledger with frames := { frame with rooms := room :: frame.rooms } :: frames }

structure Session where
  thread : Thread
  ledger : Ledger

def Session.new (tokens : BitVec 64) : Session := ⟨.new tokens, ⟨[], []⟩⟩

def step (allocator : Allocator) (session : Session) : Call → Option Session
  | .scopeOpen =>
    let (thread, token) := scopeOpen session.thread
    some ⟨thread, { session.ledger with
      frames := ⟨token, arenaTaken session.thread, []⟩ :: session.ledger.frames }⟩
  | .alloc size =>
    (alloc allocator session.thread size).map
      (fun it => ⟨it.1, session.ledger.took ⟨it.2, size.toNat⟩⟩)
  | .scopeClose scope =>
    let (thread, closed) := scopeClose session.thread scope
    some ⟨thread, if closed then { session.ledger with frames := session.ledger.frames.tail }
      else session.ledger⟩
  | .elsewhere =>
    some { session with thread := { session.thread with tokens := session.thread.tokens + 1 } }

def run (allocator : Allocator) (tokens : BitVec 64) (calls : List Call) : Option Session :=
  calls.foldlM (step allocator) (.new tokens)

def total (rooms : List Room) : ℕ := (rooms.map Room.slots).sum

inductive Laid : List Block → List Room → Prop
  | nil : Laid [] []
  | block {blocks : List Block} {rooms : List Room} (base capacity : ℕ) :
      Laid blocks rooms → Laid (⟨base, capacity, 0⟩ :: blocks) rooms
  | room {base capacity len size : ℕ} {blocks : List Block} {rooms : List Room} :
      Laid (⟨base, capacity, len⟩ :: blocks) rooms → len + slots size ≤ capacity →
      Laid (⟨base, capacity, len + slots size⟩ :: blocks) (⟨base + SLOT * len, size⟩ :: rooms)

theorem size_le (size : ℕ) : size ≤ SLOT * slots size := by
  have := le_max_left ((size + SLOT - 1) / SLOT) 1
  simp only [slots, SLOT] at this ⊢
  omega

theorem slots_pos (size : ℕ) : 0 < slots size := Nat.lt_of_lt_of_le Nat.zero_lt_one (le_max_right _ _)

@[simp] theorem total_nil : total [] = 0 := rfl

@[simp] theorem total_cons (room : Room) (rooms : List Room) :
    total (room :: rooms) = room.slots + total rooms := by
  simp [total]

@[simp] theorem total_append (rooms others : List Room) :
    total (rooms ++ others) = total rooms + total others := by
  simp [total]

theorem Laid.top {block : Block} {blocks : List Block} {rooms : List Room}
    (h : Laid (block :: blocks) rooms) :
    ∃ top rest, rooms = top ++ rest ∧ Laid blocks rest ∧ total top = block.len := by
  generalize hall : block :: blocks = all at h
  induction h generalizing block with
  | nil => cases hall
  | block base capacity h =>
    cases hall
    exact ⟨[], _, rfl, h, rfl⟩
  | @room base capacity len size _ _ h _ ih =>
    cases hall
    obtain ⟨top, rest, rfl, hrest, htop⟩ := ih rfl
    refine ⟨⟨base + SLOT * len, size⟩ :: top, rest, rfl, hrest, ?_⟩
    rw [total_cons, htop, Room.slots]
    exact Nat.add_comm _ _

def Inside (room : Room) (block : Block) : Prop :=
  block.base ≤ room.place ∧ room.ends ≤ block.base + SLOT * block.len

theorem Laid.inside {blocks : List Block} {rooms : List Room} (h : Laid blocks rooms) :
    ∀ room ∈ rooms, ∃ block ∈ blocks, Inside room block := by
  induction h with
  | nil =>
    intro room hroom
    cases hroom
  | block base capacity _ ih =>
    intro room hroom
    obtain ⟨block, hblock, hinside⟩ := ih room hroom
    exact ⟨block, List.mem_cons_of_mem _ hblock, hinside⟩
  | @room base capacity len size blocks rooms _ _ ih =>
    intro room hroom
    rcases List.mem_cons.mp hroom with rfl | hroom
    · refine ⟨_, List.mem_cons_self, Nat.le_add_right _ _, ?_⟩
      simp only [Room.ends, Room.slots, Nat.mul_add]
      omega
    · obtain ⟨block, hblock, hfrom, hto⟩ := ih room hroom
      rcases List.mem_cons.mp hblock with rfl | hblock
      · refine ⟨_, List.mem_cons_self, hfrom, ?_⟩
        simp only [Nat.mul_add] at hto ⊢
        omega
      · exact ⟨block, List.mem_cons_of_mem _ hblock, hfrom, hto⟩

theorem Laid.len_le {blocks : List Block} {rooms : List Room} (h : Laid blocks rooms) :
    ∀ block ∈ blocks, block.len ≤ block.capacity := by
  induction h with
  | nil =>
    intro block hblock
    cases hblock
  | block base capacity _ ih =>
    intro block hblock
    rcases List.mem_cons.mp hblock with rfl | hblock
    · exact Nat.zero_le _
    · exact ih block hblock
  | room _ hroom ih =>
    intro block hblock
    rcases List.mem_cons.mp hblock with rfl | hblock
    · exact hroom
    · exact ih block (List.mem_cons_of_mem _ hblock)

structure Stand (shapes : List (ℕ × ℕ)) : Prop where
  aligned : ∀ shape ∈ shapes, SLOT ∣ shape.1
  apart : shapes.Pairwise (fun one other =>
    one.1 + SLOT * one.2 ≤ other.1 ∨ other.1 + SLOT * other.2 ≤ one.1)

def shapes (blocks : List Block) : List (ℕ × ℕ) := blocks.map Block.shape

theorem Stand.tail {shape : ℕ × ℕ} {shapes : List (ℕ × ℕ)} (h : Stand (shape :: shapes)) :
    Stand shapes :=
  ⟨fun it hit => h.aligned it (List.mem_cons_of_mem _ hit), h.apart.tail⟩

def Apart (one other : Room) : Prop := one.ends ≤ other.place ∨ other.ends ≤ one.place

theorem Laid.apart {blocks : List Block} {rooms : List Room} (h : Laid blocks rooms)
    (hstand : Stand (shapes blocks)) : rooms.Pairwise Apart := by
  induction h with
  | nil => exact .nil
  | block base capacity _ ih => exact ih hstand.tail
  | @room base capacity len size blocks rooms h hroom ih =>
    refine List.pairwise_cons.mpr ⟨fun other hother => ?_, ih hstand⟩
    obtain ⟨block, hblock, hfrom, hto⟩ := h.inside other hother
    rcases List.mem_cons.mp hblock with rfl | hblock
    · exact .inr hto
    · have hshape := (List.pairwise_cons.mp hstand.apart).1 _ (List.mem_map_of_mem hblock)
      have hcapacity := Nat.mul_le_mul_left SLOT (h.len_le block (List.mem_cons_of_mem _ hblock))
      have hroom := Nat.mul_le_mul_left SLOT hroom
      simp only [Nat.mul_add] at hroom
      simp only [Block.shape] at hshape
      simp only [Apart, Room.ends, Room.slots] at hto ⊢
      omega

theorem Laid.aligned {blocks : List Block} {rooms : List Room} (h : Laid blocks rooms)
    (hstand : Stand (shapes blocks)) : ∀ room ∈ rooms, SLOT ∣ room.place := by
  induction h with
  | nil =>
    intro room hroom
    cases hroom
  | block base capacity _ ih => exact ih hstand.tail
  | @room base capacity len size blocks rooms _ _ ih =>
    intro room hroom
    rcases List.mem_cons.mp hroom with rfl | hroom
    · exact Nat.dvd_add (hstand.aligned _ List.mem_cons_self) (Nat.dvd_mul_right _ _)
    · exact ih hstand room hroom

theorem made_room (allocator : Allocator) {blocks : List Block} {rooms : List Room} {wanted : ℕ}
    (hwanted : 0 < wanted) (h : Laid blocks rooms) (hstand : Stand (shapes blocks)) :
    ∃ block rest, made allocator blocks wanted = block :: rest ∧ Laid (block :: rest) rooms ∧
      Stand (shapes (block :: rest)) ∧ block.len + wanted ≤ block.capacity ∧
      shapes blocks <:+ shapes (block :: rest) := by
  by_cases hroom : left blocks < wanted
  · let asked := max wanted BLOCK
    have hmade : made allocator blocks wanted =
        ⟨allocator.place blocks asked, allocator.capacity asked, 0⟩ :: blocks := if_pos hroom
    refine ⟨_, blocks, hmade, .block _ _ h, ⟨?_, ?_⟩, ?_, List.suffix_cons _ _⟩
    · intro shape hshape
      rcases List.mem_cons.mp hshape with rfl | hshape
      · exact allocator.aligned blocks asked
      · exact hstand.aligned shape hshape
    · refine List.pairwise_cons.mpr ⟨fun shape hshape => ?_, hstand.apart⟩
      obtain ⟨block, hblock, rfl⟩ := List.mem_map.mp hshape
      exact allocator.apart blocks asked block hblock
    · have hasked := allocator.roomy asked
      have hmax : wanted ≤ asked := le_max_left _ _
      simp only
      omega
  · have hmade : made allocator blocks wanted = blocks := if_neg hroom
    cases blocks with
    | nil => exact absurd hwanted hroom
    | cons block rest =>
      refine ⟨block, rest, hmade, h, hstand, ?_, List.suffix_refl _⟩
      have hlen := h.len_le block List.mem_cons_self
      simp only [left] at hroom
      omega

theorem room_laid (allocator : Allocator) {arena : Arena} {rooms : List Room} (size : ℕ)
    (h : Laid arena.blocks rooms) (hstand : Stand (shapes arena.blocks)) :
    ∃ after place, arena.room allocator size = some (after, place) ∧
      Laid after.blocks (⟨place, size⟩ :: rooms) ∧ after.taken = arena.taken + slots size ∧
      Stand (shapes after.blocks) ∧ shapes arena.blocks <:+ shapes after.blocks := by
  obtain ⟨block, rest, hmade, hlaid, hstand', hroom, hsuffix⟩ :=
    made_room allocator (slots_pos size) h hstand
  refine ⟨⟨{ block with len := block.len + slots size } :: rest, arena.taken + slots size⟩,
    block.base + SLOT * block.len, ?_, hlaid.room hroom, rfl, hstand', hsuffix⟩
  simp only [Arena.room, hmade]

theorem total_eq_zero (rooms : List Room) (h : total rooms = 0) : rooms = [] := by
  cases rooms with
  | nil => rfl
  | cons room rooms =>
    have := slots_pos room.size
    rw [total_cons, Room.slots] at h
    omega

/-- Rooms kept where a block is cut back to what of it they take. -/
theorem Laid.cut {block : Block} {blocks : List Block} {dropped kept : List Room} {len : ℕ}
    (h : Laid (block :: blocks) (dropped ++ kept))
    (hkept : total kept + block.len = total (dropped ++ kept) + len) (hlen : 0 < len) :
    Laid ({ block with len := len } :: blocks) kept := by
  induction dropped generalizing block with
  | nil =>
    obtain rfl : block.len = len := by simpa using hkept
    exact h
  | cons room dropped ih =>
    rw [List.cons_append] at h
    cases h with
    | block base capacity h =>
      -- a block nothing of is handed out holds none of the rooms dropped
      rw [total_append] at hkept
      simp only at hkept
      omega
    | @room base capacity before _ _ _ h hroom =>
      refine @ih ⟨base, capacity, before⟩ h ?_
      rw [List.cons_append, total_cons, Room.slots] at hkept
      simp only at hkept ⊢
      omega

/-- Of two ways to part the rooms, the one that keeps less keeps some of what the other does. -/
theorem kept_of_le {dropped kept top rest : List Room} (h : dropped ++ kept = top ++ rest)
    (hle : total kept ≤ total rest) : ∃ between, rest = between ++ kept := by
  rcases List.append_eq_append_iff.mp h with ⟨between, rfl, rfl⟩ | ⟨between, rfl, rfl⟩
  · rw [total_append] at hle
    obtain rfl := total_eq_zero between (by omega)
    exact ⟨[], rfl⟩
  · exact ⟨between, rfl⟩

theorem resetFrom_laid {blocks : List Block} {dropped kept : List Room}
    (h : Laid blocks (dropped ++ kept)) :
    ∃ after, resetFrom (total kept) blocks (total (dropped ++ kept)) = ⟨after, total kept⟩ ∧
      Laid after kept ∧ shapes after <:+ shapes blocks := by
  induction blocks generalizing dropped with
  | nil =>
    generalize hrooms : dropped ++ kept = rooms at h
    cases h
    obtain ⟨rfl, rfl⟩ := List.append_eq_nil_iff.mp hrooms
    exact ⟨[], rfl, .nil, List.suffix_refl _⟩
  | cons block blocks ih =>
    rw [resetFrom]
    by_cases htaken : total (dropped ++ kept) > total kept
    · rw [if_pos htaken]
      by_cases hwhole : total (dropped ++ kept) - block.len ≥ total kept
      · obtain ⟨top, rest, hparts, hrest, htop⟩ := h.top
        have htotal : total (dropped ++ kept) = block.len + total rest := by
          rw [hparts, total_append, htop]
        have hleft : total (dropped ++ kept) - block.len = total rest := by omega
        obtain ⟨between, rfl⟩ := kept_of_le hparts (by omega)
        obtain ⟨after, hafter, hlaid, hsuffix⟩ := ih hrest
        rw [if_pos hwhole, hleft]
        exact ⟨after, hafter, hlaid, hsuffix.trans (List.suffix_cons _ _)⟩
      · rw [if_neg hwhole]
        refine ⟨_, rfl, h.cut ?_ ?_, List.suffix_refl _⟩
        · omega
        · omega
    · rw [if_neg htaken]
      rw [total_append] at htaken
      obtain rfl := total_eq_zero dropped (by omega)
      exact ⟨block :: blocks, rfl, h, List.suffix_refl _⟩

def Marked : List Frame → List Room → Prop
  | [], _ => True
  | frame :: frames, outside => frame.stood = total (roomsOf frames outside) ∧ Marked frames outside

/-- The arena holds what the host does, and the scopes stand where the host has them open. -/
structure Held (session : Session) : Prop where
  laid : Laid session.thread.arena.blocks session.ledger.live
  taken : session.thread.arena.taken = total session.ledger.live
  stand : Stand (shapes session.thread.arena.blocks)
  scopes : session.thread.scopes = session.ledger.frames.map (fun frame => (frame.token, frame.stood))
  marked : Marked session.ledger.frames session.ledger.outside

theorem live_took (ledger : Ledger) (room : Room) : (ledger.took room).live = room :: ledger.live := by
  obtain ⟨frames, outside⟩ := ledger
  cases frames <;> rfl

theorem held_new (tokens : BitVec 64) : Held (.new tokens) :=
  ⟨.nil, rfl, ⟨(fun _ h => nomatch h), List.Pairwise.nil⟩, rfl, trivial⟩

/-- What a call does to a session that is held: it is held still, and no block a room stays in is
    given back or made anew. -/
theorem held_step (allocator : Allocator) {session : Session} (h : Held session) {call : Call}
    (hsize : ∀ size, call = .alloc size → 0 ≤ size) :
    ∃ after, step allocator session call = some after ∧ Held after ∧
      (shapes session.thread.arena.blocks <:+ shapes after.thread.arena.blocks ∨
        shapes after.thread.arena.blocks <:+ shapes session.thread.arena.blocks) := by
  cases call with
  | scopeOpen =>
    refine ⟨_, rfl, ⟨h.laid, h.taken, h.stand, ?_, h.taken, h.marked⟩, .inl (List.suffix_refl _)⟩
    simp only [List.map_cons, h.scopes]
    rfl
  | alloc size =>
    obtain ⟨arena, place, hroom, hlaid, htaken, hstand, hsuffix⟩ :=
      room_laid allocator size.toNat h.laid h.stand
    have hnot : ¬ size < 0 := Int.not_lt.mpr (hsize size rfl)
    have hstep : step allocator session (.alloc size) =
        some ⟨{ session.thread with arena := arena }, session.ledger.took ⟨place, size.toNat⟩⟩ := by
      simp only [step, alloc, if_neg hnot, hroom, Option.map_some]
    refine ⟨_, hstep, ⟨?_, ?_, hstand, ?_, ?_⟩, .inl hsuffix⟩
    · rw [live_took]
      exact hlaid
    · rw [live_took, total_cons, Room.slots]
      simp only
      rw [htaken, h.taken, Nat.add_comm]
    · obtain ⟨thread, frames, outside⟩ := session
      have hscopes := h.scopes
      cases frames <;> exact hscopes
    · obtain ⟨thread, frames, outside⟩ := session
      have hmarked := h.marked
      cases frames <;> exact hmarked
  | scopeClose scope =>
    cases hframes : session.ledger.frames with
    | nil =>
      have hscopes := h.scopes
      rw [hframes, List.map_nil] at hscopes
      refine ⟨session, ?_, h, .inl (List.suffix_refl _)⟩
      simp only [step, scopeClose, hscopes]
      rfl
    | cons frame frames =>
      have hscopes := h.scopes
      rw [hframes, List.map_cons] at hscopes
      by_cases htoken : frame.token = scope
      · have hmarked := h.marked
        rw [hframes] at hmarked
        have hlive : session.ledger.live = frame.rooms ++ roomsOf frames session.ledger.outside := by
          rw [Ledger.live, hframes]
          exact List.append_assoc _ _ _
        have hlaid := h.laid
        rw [hlive] at hlaid
        obtain ⟨blocks, hreset, hlaid', hsuffix⟩ := resetFrom_laid hlaid
        have harena : session.thread.arena.reset frame.stood =
            ⟨blocks, total (roomsOf frames session.ledger.outside)⟩ := by
          rw [Arena.reset, hmarked.1, h.taken, hlive, hreset]
        refine ⟨⟨{ session.thread with
            arena := ⟨blocks, total (roomsOf frames session.ledger.outside)⟩
            scopes := frames.map (fun frame => (frame.token, frame.stood)) },
          { session.ledger with frames := frames }⟩, ?_, ⟨hlaid', rfl, ?_, rfl, hmarked.2⟩,
          .inr hsuffix⟩
        · simp only [step, scopeClose, hscopes, if_pos htoken, harena, hframes]
          rfl
        · exact ⟨fun shape hshape => h.stand.aligned shape (hsuffix.mem hshape),
            h.stand.apart.sublist hsuffix.sublist⟩
      · refine ⟨session, ?_, h, .inl (List.suffix_refl _)⟩
        simp only [step, scopeClose, hscopes, if_neg htoken]
        rfl
  | elsewhere =>
    exact ⟨_, rfl, ⟨h.laid, h.taken, h.stand, h.scopes, h.marked⟩, .inl (List.suffix_refl _)⟩

theorem run_held (allocator : Allocator) (calls : List Call) {session : Session} (h : Held session)
    (hsizes : ∀ size, Call.alloc size ∈ calls → 0 ≤ size) :
    ∃ after, calls.foldlM (step allocator) session = some after ∧ Held after := by
  induction calls generalizing session with
  | nil => exact ⟨session, rfl, h⟩
  | cons call calls ih =>
    obtain ⟨next, hstep, hnext, -⟩ := held_step allocator h
      (fun size (hcall : call = .alloc size) => hsizes size (hcall ▸ List.mem_cons_self))
    obtain ⟨after, hrun, hafter⟩ := ih hnext (fun size hsize => hsizes size (List.mem_cons_of_mem _ hsize))
    refine ⟨after, ?_, hafter⟩
    rw [List.foldlM_cons, hstep]
    exact hrun

def Stays (before after : List Block) (room : Room) : Prop :=
  ∃ depth base capacity : ℕ, (shapes before).reverse[depth]? = some (base, capacity) ∧
    (shapes after).reverse[depth]? = some (base, capacity) ∧ base ≤ room.place ∧
      room.ends ≤ base + SLOT * capacity

/-- A room laid in blocks the others go on from stays in both. -/
theorem Laid.stays {blocks others : List Block} {rooms : List Room} (h : Laid blocks rooms)
    (hsuffix : shapes blocks <:+ shapes others) : ∀ room ∈ rooms, Stays blocks others room ∧
      Stays others blocks room := by
  intro room hroom
  obtain ⟨block, hblock, hfrom, hto⟩ := h.inside room hroom
  have hmem : block.shape ∈ (shapes blocks).reverse :=
    List.mem_reverse.mpr (List.mem_map_of_mem hblock)
  obtain ⟨depth, hdepth⟩ := List.mem_iff_getElem?.mp hmem
  have hother : (shapes others).reverse[depth]? = some block.shape := by
    obtain ⟨newer, hnewer⟩ := hsuffix
    rw [← hnewer, List.reverse_append, List.getElem?_append_left]
    · exact hdepth
    · exact (List.getElem?_eq_some_iff.mp hdepth).1
  have hend : room.ends ≤ block.base + SLOT * block.capacity :=
    hto.trans (Nat.add_le_add_left (Nat.mul_le_mul_left _ (h.len_le block hblock)) _)
  exact ⟨⟨depth, _, _, hdepth, hother, hfrom, hend⟩, ⟨depth, _, _, hother, hdepth, hfrom, hend⟩⟩

/-- What a host is told of a scope it closes. -/
structure Closes (session : Session) (scope : BitVec 64) : Prop where
  innermost : (scopeClose session.thread scope).2 = true ↔
    ∃ frame frames, session.ledger.frames = frame :: frames ∧ frame.token = scope
  drops : ∀ frame frames, session.ledger.frames = frame :: frames → frame.token = scope →
    Laid (scopeClose session.thread scope).1.arena.blocks (roomsOf frames session.ledger.outside) ∧
      arenaTaken (scopeClose session.thread scope).1 = frame.stood
  otherwise : (scopeClose session.thread scope).2 = false →
    (scopeClose session.thread scope).1 = session.thread

theorem Held.closes {session : Session} (h : Held session) (scope : BitVec 64) :
    Closes session scope := by
  have hscopes := h.scopes
  cases hframes : session.ledger.frames with
  | nil =>
    rw [hframes, List.map_nil] at hscopes
    have hclose : scopeClose session.thread scope = (session.thread, false) := by
      simp only [scopeClose, hscopes]
    constructor
    · rw [hclose, hframes]
      simp
    · intro frame frames hcons
      rw [hframes] at hcons
      cases hcons
    · rw [hclose]
      exact fun _ => rfl
  | cons frame frames =>
    rw [hframes, List.map_cons] at hscopes
    have hmarked := h.marked
    rw [hframes] at hmarked
    by_cases htoken : frame.token = scope
    · have hclose : scopeClose session.thread scope =
          ({ session.thread with
              arena := session.thread.arena.reset frame.stood
              scopes := frames.map (fun frame => (frame.token, frame.stood)) }, true) := by
        simp only [scopeClose, hscopes, if_pos htoken]
      have hlive : session.ledger.live = frame.rooms ++ roomsOf frames session.ledger.outside := by
        rw [Ledger.live, hframes]
        exact List.append_assoc _ _ _
      have hlaid := h.laid
      rw [hlive] at hlaid
      obtain ⟨blocks, hreset, hlaid', -⟩ := resetFrom_laid hlaid
      have harena : session.thread.arena.reset frame.stood = ⟨blocks, frame.stood⟩ := by
        rw [Arena.reset, hmarked.1, h.taken, hlive, hreset]
      rw [harena] at hclose
      constructor
      · rw [hclose, hframes]
        simp [htoken]
      · intro frame' frames' hcons _
        rw [hframes] at hcons
        cases hcons
        rw [hclose]
        exact ⟨hlaid', rfl⟩
      · rw [hclose]
        intro hfalse
        cases hfalse
    · have hclose : scopeClose session.thread scope = (session.thread, false) := by
        simp only [scopeClose, hscopes, if_neg htoken]
      constructor
      · rw [hclose, hframes]
        simp [htoken]
      · intro frame' frames' hcons htoken'
        rw [hframes] at hcons
        cases hcons
        exact absurd htoken' htoken
      · rw [hclose]
        exact fun _ => rfl

/-- Whatever a thread is asked, in whatever order and with whatever tokens: the rooms it was
    answered and not yet told are dropped stand where a slot may, each inside one block, apart from
    each other and never moved, and a close drops what its scope took and nothing else. -/
theorem rooms_stand (allocator : Allocator) (tokens : BitVec 64) (calls : List Call)
    (hsizes : ∀ size, Call.alloc size ∈ calls → 0 ≤ size) :
    ∃ session, run allocator tokens calls = some session ∧
      (∀ room ∈ session.ledger.live, SLOT ∣ room.place ∧ room.place + room.size ≤ room.ends ∧
        ∃ block ∈ session.thread.arena.blocks, block.base ≤ room.place ∧
          room.ends ≤ block.base + SLOT * block.capacity) ∧
      session.ledger.live.Pairwise Apart ∧
      arenaTaken session.thread = total session.ledger.live ∧
      (∀ call, (∀ size, call = .alloc size → 0 ≤ size) →
        ∃ after, step allocator session call = some after ∧
          ∀ room ∈ session.ledger.live, room ∈ after.ledger.live →
            Stays session.thread.arena.blocks after.thread.arena.blocks room) ∧
      ∀ scope, Closes session scope := by
  obtain ⟨session, hrun, h⟩ := run_held allocator calls (held_new tokens) hsizes
  refine ⟨session, hrun, ?_, h.laid.apart h.stand, h.taken, ?_, h.closes⟩
  · intro room hroom
    obtain ⟨block, hblock, hfrom, hto⟩ := h.laid.inside room hroom
    have hend := Nat.mul_le_mul_left SLOT (h.laid.len_le block hblock)
    exact ⟨h.laid.aligned h.stand room hroom, Nat.add_le_add_left (size_le room.size) _,
      block, hblock, hfrom, hto.trans (Nat.add_le_add_left hend _)⟩
  · intro call hcall
    obtain ⟨after, hstep, hafter, hsuffix⟩ := held_step allocator h hcall
    refine ⟨after, hstep, fun room hroom hroom' => ?_⟩
    rcases hsuffix with hsuffix | hsuffix
    · exact (h.laid.stays hsuffix room hroom).1
    · exact (hafter.laid.stays hsuffix room hroom').2

def bump : Allocator where
  capacity wanted := wanted
  roomy _ := le_refl _
  place blocks _ := SLOT * (blocks.map (fun block => block.base + block.capacity)).sum
  aligned _ _ := Nat.dvd_mul_right _ _
  apart blocks wanted block hblock := by
    have hle := List.le_sum_of_mem (List.mem_map_of_mem (f := fun block : Block =>
      block.base + block.capacity) hblock)
    simp only [SLOT]
    omega

theorem rooms_stand_closing :
    ∃ session, run bump 1#64 [.alloc 12, .scopeOpen, .alloc 0, .scopeClose 7#64, .scopeClose 1#64] =
      some session ∧ session.ledger.live = [⟨0, 12⟩] ∧
        arenaTaken session.thread = total session.ledger.live := by
  obtain ⟨session, hrun, -, -, htaken, -⟩ := rooms_stand bump 1#64
    [.alloc 12, .scopeOpen, .alloc 0, .scopeClose 7#64, .scopeClose 1#64] (by simp)
  refine ⟨session, hrun, ?_, htaken⟩
  have hruns : run bump 1#64 [.alloc 12, .scopeOpen, .alloc 0, .scopeClose 7#64, .scopeClose 1#64] =
      some ⟨⟨⟨[⟨0, 2 ^ 17, 2⟩], 2⟩, [], 2#64⟩, ⟨[], [⟨0, 12⟩]⟩⟩ := rfl
  rw [hruns, Option.some.injEq] at hrun
  rw [← hrun]
  rfl

end SoutherNative.Scopes
