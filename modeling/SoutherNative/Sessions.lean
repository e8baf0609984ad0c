import SoutherNative.RunSteps

set_option autoImplicit false

/-!
# Sessions, and the fibers they are opened on

A host's runs on the fibers of one thread. A library holds the sessions of its runs open, all of
them on one fiber; a session is closed before the scope its run stands on, and what it kept is let
go of between the two. The exception a callback threw is kept in one place until its call returns,
and a closure handed over is found again by the ids of objects, which are used again.
-/
namespace SoutherNative.Sessions

structure Value where
  slot : ℕ
  token : ℕ
  closure : ℕ

structure Session where
  library : ℕ
  fiber : ℕ
  active : Bool
  /-- Each function value made in the run, by the ids of its slot and of its closure. -/
  made : List ((ℕ × ℕ) × Value)

/-- A closure a slot finds by a token, for as long as a session keeps the function value made of
    it. -/
structure Kept where
  value : Value
  session : ℕ

inductive Frame
  /-- The body of a run returns or throws. -/
  | runs (library session : ℕ) (scope : BitVec 64)
  /-- The session of a run was closed, and its scope is to be. -/
  | ends (library session : ℕ) (scope : BitVec 64)
  /-- A call into a library, and what a callback of it threw. -/
  | call (library : ℕ) (threw : Option ℕ)
  | callback

/-- The fiber that is none, on which a program starts, is nought. -/
structure State where
  opened : ℕ → List ℕ
  holder : ℕ → ℕ
  arenas : ℕ → Scopes.Thread
  sessions : ℕ → Session
  next : ℕ
  frames : ℕ → List Frame
  pending : Option ℕ
  /-- The objects that live, the id of each, and how many there have been. -/
  objects : List ℕ
  ids : ℕ → ℕ
  created : ℕ
  tokens : ℕ → ℕ
  closures : List Kept

def State.new : State where
  opened := fun _ => []
  holder := fun _ => 0
  arenas := fun _ => .new 0
  sessions := fun _ => ⟨0, 0, false, []⟩
  next := 0
  frames := fun _ => []
  pending := none
  objects := []
  ids := fun _ => 0
  created := 0
  tokens := fun _ => 1
  closures := []

inductive Refused
  | runOnAnotherFiber | logic | outsideAnyRun | expired | notTheInnermostRun | foreignHandle

section

variable (state : State) (fiber : ℕ)

def State.ffi (session : ℕ) : Except Refused Unit :=
  if (state.sessions session).active = false then .error .expired
  else if fiber ≠ (state.sessions session).fiber then .error .runOnAnotherFiber
  else .ok ()

def State.call (session : ℕ) : Except Refused Unit := do
  state.ffi fiber session
  if (state.opened (state.sessions session).library).head? ≠ some session then
    .error .notTheInnermostRun
  else .ok ()

/-- Whether a value of `session` is handed to a function of the library `into` is a session of. -/
def State.borrow (session into : ℕ) : Except Refused Unit :=
  if (state.sessions session).active = false then .error .expired
  else if (state.sessions into).library ≠ (state.sessions session).library then
    .error .foreignHandle
  else if (state.sessions into).active = false then .error .expired
  else .ok ()

def State.innermostHere (library : ℕ) : Option ℕ :=
  match state.opened library with
  | session :: _ => if state.holder library = fiber then some session else none
  | [] => none

def State.functionOf (session slot closure : ℕ) : Option Value :=
  ((state.sessions session).made.find? fun it =>
    it.1 = (state.ids slot, state.ids closure)).map Prod.snd

def State.dispatch (slot token : ℕ) : Option ℕ :=
  (state.closures.find? fun it => it.value.slot = slot ∧ it.value.token = token).map
    (·.value.closure)

/-- What a call that answered that a host threw throws: what is pending, and that nothing is kept
    where nothing is. -/
def State.failure : Option ℕ := state.pending

end

inductive Act
  /-- `Binding::run`, as far as its body. -/
  | opens (library : ℕ)
  /-- The body ended, and the session is closed. -/
  | ends
  /-- What the session kept is let go of, and the scope is closed. -/
  | closes
  | calls (library : ℕ) (handles : List ℕ)
  | callsBack
  | answers
  | throws (exception : ℕ)
  /-- The library's call returns, and what was kept for it is thrown. -/
  | returns
  /-- An object is made, a closure or a slot, with an id no object that lives has. -/
  | creates (id : ℕ)
  /-- The host lets go of an object, which is freed where nothing else refers to it. -/
  | frees (object : ℕ)
  | implements (session slot closure : ℕ)

def State.onFiber (state : State) (fiber : ℕ) (stack : List Frame) : State :=
  { state with frames := Function.update state.frames fiber stack }

def State.tries (state : State) (fiber : ℕ) : Act → Except Refused State
  | .opens library =>
    if state.opened library ≠ [] ∧ fiber ≠ state.holder library then .error .runOnAnotherFiber
    else
      let (arena, scope) := Scopes.scopeOpen (state.arenas library)
      .ok { state with
        opened := Function.update state.opened library (state.next :: state.opened library)
        holder := Function.update state.holder library fiber
        arenas := Function.update state.arenas library arena
        sessions := Function.update state.sessions state.next ⟨library, fiber, true, []⟩
        next := state.next + 1
        frames := Function.update state.frames fiber
          (.runs library state.next scope :: state.frames fiber) }
  | .ends =>
    match state.frames fiber with
    | .runs library session scope :: rest =>
      if (state.opened library).head? ≠ some session then .error .logic
      else .ok { state with
        opened := Function.update state.opened library (state.opened library).tail
        sessions := Function.update state.sessions session
          { state.sessions session with active := false, made := [] }
        closures := state.closures.filter fun it => it.session ≠ session
        frames := Function.update state.frames fiber (.ends library session scope :: rest) }
    | _ => .ok state
  | .closes =>
    match state.frames fiber with
    | .ends library _ scope :: rest =>
      .ok { state with
        holder := Function.update state.holder library
          (if state.opened library = [] then 0 else state.holder library)
        arenas := Function.update state.arenas library
          (Scopes.scopeClose (state.arenas library) scope).1
        frames := Function.update state.frames fiber rest }
    | _ => .ok state
  | .calls library handles =>
    match state.innermostHere fiber library with
    | none => .error .outsideAnyRun
    | some into => do
      state.call fiber into
      handles.forM fun session => state.borrow session into
      return state.onFiber fiber (.call library none :: state.frames fiber)
  | .callsBack =>
    match state.frames fiber with
    | .call library none :: rest =>
      .ok (state.onFiber fiber (.callback :: .call library none :: rest))
    | _ => .ok state
  | .answers =>
    match state.frames fiber with
    | .callback :: rest => .ok (state.onFiber fiber rest)
    | _ => .ok state
  | .throws exception =>
    match state.frames fiber with
    | .callback :: .call library none :: rest =>
      .ok { state with
        pending := some exception
        frames := Function.update state.frames fiber (.call library (some exception) :: rest) }
    | _ => .ok state
  | .returns =>
    match state.frames fiber with
    | .call _ none :: rest => .ok (state.onFiber fiber rest)
    | .call _ (some _) :: rest =>
      .ok { state with pending := none, frames := Function.update state.frames fiber rest }
    | _ => .ok state
  | .creates id =>
    if id ∈ state.objects.map state.ids then .ok state
    else .ok { state with
      objects := state.created :: state.objects
      ids := Function.update state.ids state.created id
      created := state.created + 1 }
  | .frees object =>
    if ∃ it ∈ state.closures, it.value.slot = object ∨ it.value.closure = object then .ok state
    else .ok { state with objects := state.objects.filter fun it => it ≠ object }
  | .implements session slot closure =>
    if slot ∉ state.objects ∨ closure ∉ state.objects then .ok state
    else
      match state.functionOf session slot closure with
      | some _ => .ok state
      | none => do
        state.ffi fiber session
        let value := ⟨slot, state.tokens slot, closure⟩
        return { state with
          tokens := Function.update state.tokens slot (state.tokens slot + 1)
          closures := ⟨value, session⟩ :: state.closures
          sessions := Function.update state.sessions session { state.sessions session with
            made := ((state.ids slot, state.ids closure), value) ::
              (state.sessions session).made } }

def State.step (state : State) (fiber : ℕ) (act : Act) : State :=
  match state.tries fiber act with
  | .ok after => after
  | .error _ => state

def State.run (state : State) (acts : List (ℕ × Act)) : State :=
  acts.foldl (fun state act => state.step act.1 act.2) state

/-- The runs of a library on a stack, the innermost first: whether the session was closed, the
    session and the scope. -/
def entries (library : ℕ) : List Frame → List (Bool × ℕ × BitVec 64)
  | [] => []
  | .runs other session scope :: rest =>
    if other = library then (false, session, scope) :: entries library rest
    else entries library rest
  | .ends other session scope :: rest =>
    if other = library then (true, session, scope) :: entries library rest
    else entries library rest
  | .call .. :: rest => entries library rest
  | .callback :: rest => entries library rest

def stopped : List Frame → List ℕ
  | [] => []
  | .call _ (some exception) :: rest => exception :: stopped rest
  | .call _ none :: rest => stopped rest
  | .runs .. :: rest => stopped rest
  | .ends .. :: rest => stopped rest
  | .callback :: rest => stopped rest

def State.entries (state : State) (library : ℕ) : List (Bool × ℕ × BitVec 64) :=
  Sessions.entries library (state.frames (state.holder library))

def Act.Allowed (state : State) (fiber : ℕ) : Act → Prop
  | .opens library => (state.opened library ≠ [] ∧ fiber ≠ state.holder library) ∨
      ∀ entry ∈ state.entries library, entry.1 = false
  | .throws _ => ∀ other, stopped (state.frames other) = []
  | _ => True

def AllAllowed (state : State) : List (ℕ × Act) → Prop
  | [] => True
  | act :: rest => act.2.Allowed state act.1 ∧ AllAllowed (state.step act.1 act.2) rest

structure RunInv (state : State) : Prop where
  away : ∀ library fiber, fiber ≠ state.holder library →
    entries library (state.frames fiber) = []
  shape : ∀ library, ∀ entry ∈ (state.entries library).tail, entry.1 = false
  opened : ∀ library, state.opened library =
    ((state.entries library).filter fun entry => !entry.1).map fun entry => entry.2.1
  scopes : ∀ library, (state.arenas library).scopes.map Prod.fst =
    (state.entries library).map fun entry => entry.2.2
  active : ∀ session, (state.sessions session).active = true →
    session ∈ state.opened (state.sessions session).library
  sessions : ∀ library, ∀ session ∈ state.opened library, session < state.next ∧
    (state.sessions session).library = library ∧
    (state.sessions session).fiber = state.holder library ∧
    (state.sessions session).active = true
  nodup : ∀ library, (state.opened library).Nodup

def ThrowInv (state : State) : Prop :=
  (∀ fiber, stopped (state.frames fiber) = []) ∨
    ∃ fiber exception, stopped (state.frames fiber) = [exception] ∧
      state.pending = some exception ∧ ∀ other, other ≠ fiber → stopped (state.frames other) = []

structure ObjectInv (state : State) : Prop where
  active : ∀ session, (state.sessions session).made ≠ [] →
    (state.sessions session).active = true
  made : ∀ session, ∀ it ∈ (state.sessions session).made,
    ⟨it.2, session⟩ ∈ state.closures ∧ it.1 = (state.ids it.2.slot, state.ids it.2.closure)
  live : ∀ it ∈ state.closures, it.value.slot ∈ state.objects ∧
    it.value.closure ∈ state.objects ∧ it.value.token < state.tokens it.value.slot
  once : ∀ it ∈ state.closures, ∀ other ∈ state.closures,
    it.value.slot = other.value.slot → it.value.token = other.value.token → it = other
  apart : ∀ object ∈ state.objects, ∀ other ∈ state.objects,
    state.ids object = state.ids other → object = other
  created : ∀ object ∈ state.objects, object < state.created

structure Inv (state : State) : Prop where
  runs : RunInv state
  throws : ThrowInv state
  objects : ObjectInv state

section

variable {state after : State} {fiber : ℕ}

lemma RunInv.same (inv : RunInv state) (opened : after.opened = state.opened)
    (holder : after.holder = state.holder) (arenas : after.arenas = state.arenas)
    (next : after.next = state.next)
    (sessions : ∀ session,
      (after.sessions session).library = (state.sessions session).library ∧
      (after.sessions session).fiber = (state.sessions session).fiber ∧
      (after.sessions session).active = (state.sessions session).active)
    (frames : ∀ library fiber,
      entries library (after.frames fiber) = entries library (state.frames fiber)) :
    RunInv after := by
  have entered : ∀ library, after.entries library = state.entries library := by
    intro library
    unfold State.entries
    rw [holder, frames]
  constructor
  · intro library fiber away
    rw [frames]
    exact inv.away library fiber (holder ▸ away)
  · intro library
    rw [entered]
    exact inv.shape library
  · intro library
    rw [opened, entered]
    exact inv.opened library
  · intro library
    rw [arenas, entered]
    exact inv.scopes library
  · intro session active
    rw [(sessions session).2.2] at active
    rw [opened, (sessions session).1]
    exact inv.active session active
  · intro library session member
    rw [opened] at member
    rw [next, (sessions session).1, (sessions session).2.1, (sessions session).2.2, holder]
    exact inv.sessions library session member
  · rw [opened]
    exact inv.nodup

lemma ThrowInv.same (inv : ThrowInv state) (pending : after.pending = state.pending)
    (frames : ∀ fiber, stopped (after.frames fiber) = stopped (state.frames fiber)) :
    ThrowInv after := by
  rcases inv with none | ⟨fiber, exception, its, kept, others⟩
  · exact .inl fun fiber => (frames fiber).trans (none fiber)
  · exact .inr ⟨fiber, exception, (frames fiber).trans its, pending.trans kept,
      fun other apart => (frames other).trans (others other apart)⟩

lemma ObjectInv.same (inv : ObjectInv state)
    (sessions : ∀ session, (after.sessions session).made = [] ∨
      (after.sessions session).made = (state.sessions session).made ∧
      (after.sessions session).active = (state.sessions session).active)
    (objects : after.objects = state.objects) (ids : after.ids = state.ids)
    (created : after.created = state.created) (tokens : after.tokens = state.tokens)
    (closures : after.closures = state.closures) : ObjectInv after := by
  constructor
  · intro session some
    rcases sessions session with none | ⟨made, active⟩
    · exact absurd none some
    · rw [active]
      exact inv.active session (made ▸ some)
  · intro session it member
    rcases sessions session with none | ⟨made, -⟩
    · rw [none] at member
      cases member
    · rw [made] at member
      rw [closures, ids]
      exact inv.made session it member
  · rw [closures, objects, tokens]
    exact inv.live
  · rw [closures]
    exact inv.once
  · rw [objects, ids]
    exact inv.apart
  · rw [objects, created]
    exact inv.created

lemma update_same {α : Type} (read : List Frame → α) {stack : List Frame}
    (same : read stack = read (state.frames fiber)) (other : ℕ) :
    read (Function.update state.frames fiber stack other) = read (state.frames other) := by
  by_cases here : other = fiber
  · rw [here, Function.update_self, same]
  · rw [Function.update_of_ne here]

lemma Inv.onFiber (inv : Inv state) {stack : List Frame}
    (entered : ∀ library, entries library stack = entries library (state.frames fiber))
    (same : stopped stack = stopped (state.frames fiber)) : Inv (state.onFiber fiber stack) := by
  refine ⟨?_, ?_, ?_⟩
  · exact inv.runs.same rfl rfl rfl rfl (fun _ => ⟨rfl, rfl, rfl⟩)
      fun library => update_same (entries library) (entered library)
  · exact inv.throws.same rfl (update_same stopped same)
  · exact inv.objects.same (fun _ => .inr ⟨rfl, rfl⟩) rfl rfl rfl rfl rfl

/-- No session is open where a run of the library is on no stack. -/
lemma RunInv.entries_nil (inv : RunInv state) {library : ℕ} (none : state.opened library = [])
    (running : ∀ entry ∈ state.entries library, entry.1 = false) : state.entries library = [] := by
  have opened := inv.opened library
  rw [none, List.filter_eq_self.mpr fun entry member => by simp [running entry member]] at opened
  exact List.map_eq_nil_iff.mp opened.symm

lemma RunInv.opens (inv : RunInv state) {library : ℕ}
    (here : ¬ (state.opened library ≠ [] ∧ fiber ≠ state.holder library))
    (running : ∀ entry ∈ state.entries library, entry.1 = false)
    (opened : after.opened =
      Function.update state.opened library (state.next :: state.opened library))
    (holder : after.holder = Function.update state.holder library fiber)
    {scope : BitVec 64}
    (scopes : (after.arenas library).scopes.map Prod.fst =
      scope :: (state.arenas library).scopes.map Prod.fst)
    (others : ∀ other, other ≠ library → after.arenas other = state.arenas other)
    (sessions : after.sessions =
      Function.update state.sessions state.next ⟨library, fiber, true, []⟩)
    (next : after.next = state.next + 1)
    (frames : after.frames = Function.update state.frames fiber
      (.runs library state.next scope :: state.frames fiber)) : RunInv after := by
  have same : entries library (state.frames fiber) = state.entries library := by
    by_cases its : fiber = state.holder library
    · unfold State.entries
      rw [its]
    · have none : state.opened library = [] := by
        by_contra some
        exact here ⟨some, its⟩
      rw [inv.away library fiber its, inv.entries_nil none running]
  have entered : ∀ other, after.entries other =
      if other = library then (false, state.next, scope) :: state.entries library
      else state.entries other := by
    intro other
    unfold State.entries
    rw [holder, frames]
    by_cases its : other = library
    · subst its
      rw [if_pos rfl, Function.update_self, Function.update_self]
      exact (if_pos rfl).trans (congrArg _ same)
    · rw [if_neg its, Function.update_of_ne its]
      refine update_same (Sessions.entries other) ?_ _
      exact if_neg (Ne.symm its)
  have fresh : ∀ other, ∀ session ∈ state.opened other, session ≠ state.next :=
    fun other session member => (inv.sessions other session member).1.ne
  constructor
  · intro other elsewhere away
    rw [frames]
    rw [holder] at away
    by_cases its : other = library
    · subst its
      rw [Function.update_self] at away
      rw [Function.update_of_ne away]
      by_cases was : elsewhere = state.holder other
      · have none : state.opened other = [] := by
          by_contra some
          exact here ⟨some, fun its => away (was.trans its.symm)⟩
        rw [was]
        exact inv.entries_nil none running
      · exact inv.away other elsewhere was
    · rw [Function.update_of_ne its] at away
      refine (update_same (Sessions.entries other) ?_ elsewhere).trans
        (inv.away other elsewhere away)
      exact if_neg (Ne.symm its)
  · intro other
    rw [entered]
    by_cases its : other = library
    · rw [if_pos its]
      exact running
    · rw [if_neg its]
      exact inv.shape other
  · intro other
    rw [entered, opened]
    by_cases its : other = library
    · rw [if_pos its, its, Function.update_self, inv.opened library]
      rfl
    · rw [if_neg its, Function.update_of_ne its]
      exact inv.opened other
  · intro other
    rw [entered]
    by_cases its : other = library
    · rw [if_pos its, its, scopes, inv.scopes library]
      rfl
    · rw [if_neg its, others other its]
      exact inv.scopes other
  · intro session active
    rw [sessions] at active ⊢
    rw [opened]
    by_cases new : session = state.next
    · rw [new, Function.update_self, Function.update_self]
      exact List.mem_cons_self
    · rw [Function.update_of_ne new] at active ⊢
      have member := inv.active session active
      by_cases its : (state.sessions session).library = library
      · rw [its, Function.update_self]
        exact List.mem_cons_of_mem _ (its ▸ member)
      · rw [Function.update_of_ne its]
        exact member
  · intro other session member
    rw [next, holder, sessions]
    rw [opened] at member
    by_cases its : other = library
    · subst its
      rw [Function.update_self] at member ⊢
      rcases List.mem_cons.mp member with rfl | old
      · rw [Function.update_self]
        exact ⟨Nat.lt_succ_self _, rfl, rfl, rfl⟩
      · obtain ⟨made, of, on, active⟩ := inv.sessions other session old
        rw [Function.update_of_ne made.ne]
        refine ⟨made.trans (Nat.lt_succ_self _), of, on.trans ?_, active⟩
        by_contra apart
        exact here ⟨List.ne_nil_of_mem old, fun its => apart its.symm⟩
    · rw [Function.update_of_ne its] at member ⊢
      obtain ⟨made, rest⟩ := inv.sessions other session member
      rw [Function.update_of_ne made.ne]
      exact ⟨made.trans (Nat.lt_succ_self _), rest⟩
  · intro other
    rw [opened]
    by_cases its : other = library
    · rw [its, Function.update_self]
      exact List.nodup_cons.mpr ⟨fun member => fresh library _ member rfl, inv.nodup library⟩
    · rw [Function.update_of_ne its]
      exact inv.nodup other

/-- A run on top of a fiber's stack is the innermost of its library, on the fiber of its runs. -/
lemma RunInv.top (inv : RunInv state) {library : ℕ} {closed : Bool} {session : ℕ}
    {scope : BitVec 64} {rest : List (Bool × ℕ × BitVec 64)}
    (top : entries library (state.frames fiber) = (closed, session, scope) :: rest) :
    fiber = state.holder library ∧ state.entries library = (closed, session, scope) :: rest := by
  have its : fiber = state.holder library := by
    by_contra away
    rw [inv.away library fiber away] at top
    cases top
  refine ⟨its, ?_⟩
  unfold State.entries
  rw [← its, top]

lemma filter_running {entries : List (Bool × ℕ × BitVec 64)}
    (running : ∀ entry ∈ entries, entry.1 = false) :
    (entries.filter fun entry => !entry.1) = entries :=
  List.filter_eq_self.mpr fun entry member => by simp [running entry member]

/-- The session of the innermost run is closed. -/
lemma RunInv.ends (inv : RunInv state) {library session : ℕ} {scope : BitVec 64}
    {rest : List Frame} (top : state.frames fiber = .runs library session scope :: rest)
    (opened : after.opened =
      Function.update state.opened library (state.opened library).tail)
    (holder : after.holder = state.holder) (arenas : after.arenas = state.arenas)
    (sessions : after.sessions = Function.update state.sessions session
      { state.sessions session with active := false, made := [] })
    (next : after.next = state.next)
    (frames : after.frames =
      Function.update state.frames fiber (.ends library session scope :: rest)) :
    RunInv after := by
  have stands : entries library (state.frames fiber) =
      (false, session, scope) :: entries library rest := by
    rw [top]
    exact if_pos rfl
  obtain ⟨its, stood⟩ := inv.top stands
  have running : ∀ entry ∈ entries library rest, entry.1 = false := by
    intro entry member
    refine inv.shape library entry ?_
    rw [stood]
    exact member
  have was : state.opened library = session :: (entries library rest).map fun it => it.2.1 := by
    rw [inv.opened library, stood, List.filter_cons_of_pos (by rfl), filter_running running]
    rfl
  have tail : (state.opened library).tail = (entries library rest).map fun it => it.2.1 := by
    rw [was]
    rfl
  have unique : session ∉ (state.opened library).tail := by
    have nodup := inv.nodup library
    rw [was] at nodup ⊢
    exact (List.nodup_cons.mp nodup).1
  have its_ := inv.sessions library session (by rw [was]; simp)
  have entered : ∀ other, after.entries other =
      if other = library then (true, session, scope) :: entries library rest
      else state.entries other := by
    intro other
    unfold State.entries
    rw [holder, frames]
    by_cases same : other = library
    · subst same
      rw [if_pos rfl, ← its, Function.update_self]
      exact if_pos rfl
    · rw [if_neg same]
      refine update_same (Sessions.entries other) ?_ _
      rw [top]
      exact (if_neg (Ne.symm same)).trans (if_neg (Ne.symm same)).symm
  constructor
  · intro other elsewhere away
    rw [frames]
    rw [holder] at away
    by_cases same : other = library
    · subst same
      rw [Function.update_of_ne fun here => away (here.trans its)]
      exact inv.away other elsewhere away
    · refine (update_same (Sessions.entries other) ?_ elsewhere).trans
        (inv.away other elsewhere away)
      rw [top]
      exact (if_neg (Ne.symm same)).trans (if_neg (Ne.symm same)).symm
  · intro other
    rw [entered]
    by_cases same : other = library
    · rw [if_pos same]
      exact running
    · rw [if_neg same]
      exact inv.shape other
  · intro other
    rw [entered, opened]
    by_cases same : other = library
    · rw [if_pos same, same, Function.update_self, tail, List.filter_cons_of_neg (by simp),
        filter_running running]
    · rw [if_neg same, Function.update_of_ne same]
      exact inv.opened other
  · intro other
    rw [entered, arenas, inv.scopes other]
    by_cases same : other = library
    · rw [if_pos same, same, stood]
      rfl
    · rw [if_neg same]
  · intro other active
    rw [sessions] at active ⊢
    rw [opened]
    by_cases same : other = session
    · rw [same, Function.update_self] at active
      cases active
    · rw [Function.update_of_ne same] at active ⊢
      have member := inv.active other active
      by_cases of : (state.sessions other).library = library
      · rw [of, Function.update_self, tail]
        rw [of, was] at member
        exact (List.mem_cons.mp member).resolve_left same
      · rw [Function.update_of_ne of]
        exact member
  · intro other known member
    rw [next, holder, sessions]
    rw [opened] at member
    have apart : known ≠ session ∧ known ∈ state.opened other := by
      by_cases same : other = library
      · subst same
        rw [Function.update_self] at member
        exact ⟨fun same => unique (same ▸ member), List.mem_of_mem_tail member⟩
      · rw [Function.update_of_ne same] at member
        refine ⟨fun its => same ?_, member⟩
        rw [its] at member
        exact (inv.sessions other session member).2.1.symm.trans its_.2.1
    rw [Function.update_of_ne apart.1]
    exact inv.sessions other known apart.2
  · intro other
    rw [opened]
    by_cases same : other = library
    · rw [same, Function.update_self]
      exact (inv.nodup library).tail
    · rw [Function.update_of_ne same]
      exact inv.nodup other

/-- The scope of a run whose session was closed is the innermost of its library's. -/
lemma RunInv.innermost (inv : RunInv state) {library session : ℕ} {scope : BitVec 64}
    {rest : List Frame} (top : state.frames fiber = .ends library session scope :: rest) :
    (state.arenas library).scopes.map Prod.fst =
      scope :: (entries library rest).map fun it => it.2.2 := by
  have stands : entries library (state.frames fiber) =
      (true, session, scope) :: entries library rest := by
    rw [top]
    exact if_pos rfl
  rw [inv.scopes library, (inv.top stands).2]
  rfl

lemma RunInv.closes (inv : RunInv state) {library session : ℕ} {scope : BitVec 64}
    {rest : List Frame} (top : state.frames fiber = .ends library session scope :: rest)
    (opened : after.opened = state.opened)
    (holder : after.holder = Function.update state.holder library
      (if state.opened library = [] then 0 else state.holder library))
    (arenas : after.arenas = Function.update state.arenas library
      (Scopes.scopeClose (state.arenas library) scope).1)
    (sessions : after.sessions = state.sessions) (next : after.next = state.next)
    (frames : after.frames = Function.update state.frames fiber rest) : RunInv after := by
  have stands : entries library (state.frames fiber) =
      (true, session, scope) :: entries library rest := by
    rw [top]
    exact if_pos rfl
  obtain ⟨its, stood⟩ := inv.top stands
  have running : ∀ entry ∈ entries library rest, entry.1 = false := by
    intro entry member
    refine inv.shape library entry ?_
    rw [stood]
    exact member
  have was : state.opened library = (entries library rest).map fun it => it.2.1 := by
    rw [inv.opened library, stood, List.filter_cons_of_neg (by simp), filter_running running]
  have innermost := inv.innermost top
  have everywhere : ∀ other, other ≠ library → ∀ elsewhere,
      entries other (after.frames elsewhere) = entries other (state.frames elsewhere) := by
    intro other apart elsewhere
    rw [frames]
    refine update_same (Sessions.entries other) ?_ elsewhere
    rw [top]
    exact (if_neg (Ne.symm apart)).symm
  have nothing : state.opened library = [] →
      ∀ elsewhere, entries library (after.frames elsewhere) = [] := by
    intro none elsewhere
    rw [frames]
    by_cases here : elsewhere = fiber
    · rw [here, Function.update_self]
      rw [none] at was
      exact List.map_eq_nil_iff.mp was.symm
    · rw [Function.update_of_ne here]
      exact inv.away library elsewhere fun same => here (same.trans its.symm)
  have entered : ∀ other, after.entries other =
      if other = library then entries library rest else state.entries other := by
    intro other
    by_cases same : other = library
    · subst same
      rw [if_pos rfl]
      unfold State.entries
      rw [holder, Function.update_self]
      by_cases none : state.opened other = []
      · rw [nothing none]
        rw [none] at was
        exact (List.map_eq_nil_iff.mp was.symm).symm
      · rw [if_neg none, ← its, frames, Function.update_self]
    · rw [if_neg same]
      unfold State.entries
      rw [holder, Function.update_of_ne same, everywhere other same]
  have on : ∀ other, state.opened other ≠ [] → after.holder other = state.holder other := by
    intro other some
    rw [holder]
    by_cases same : other = library
    · rw [same, Function.update_self, if_neg (same ▸ some)]
    · rw [Function.update_of_ne same]
  constructor
  · intro other elsewhere away
    by_cases same : other = library
    · subst same
      by_cases none : state.opened other = []
      · exact nothing none elsewhere
      · rw [on other none] at away
        rw [frames, Function.update_of_ne fun here => away (here.trans its)]
        exact inv.away other elsewhere away
    · rw [holder, Function.update_of_ne same] at away
      rw [everywhere other same]
      exact inv.away other elsewhere away
  · intro other
    rw [entered]
    by_cases same : other = library
    · rw [if_pos same]
      exact fun entry member => running entry (List.mem_of_mem_tail member)
    · rw [if_neg same]
      exact inv.shape other
  · intro other
    rw [entered, opened]
    by_cases same : other = library
    · rw [if_pos same, same, filter_running running]
      exact was
    · rw [if_neg same]
      exact inv.opened other
  · intro other
    rw [entered, arenas]
    by_cases same : other = library
    · rw [if_pos same, same, Function.update_self]
      exact (Runs.scopeClose_innermost innermost).2
    · rw [if_neg same, Function.update_of_ne same]
      exact inv.scopes other
  · intro other
    rw [sessions, opened]
    exact inv.active other
  · intro other known member
    rw [opened] at member
    rw [next, sessions, on other (List.ne_nil_of_mem member)]
    exact inv.sessions other known member
  · rw [opened]
    exact inv.nodup

lemma throwInv_throws {library exception : ℕ} {rest : List Frame}
    (nothing : ∀ other, stopped (state.frames other) = [])
    (top : state.frames fiber = .callback :: .call library none :: rest)
    (pending : after.pending = some exception)
    (frames : after.frames =
      Function.update state.frames fiber (.call library (some exception) :: rest)) :
    ThrowInv after := by
  refine .inr ⟨fiber, exception, ?_, pending, fun other apart => ?_⟩
  · have below := nothing fiber
    rw [top] at below
    rw [frames, Function.update_self]
    exact congrArg (exception :: ·) below
  · rw [frames, Function.update_of_ne apart]
    exact nothing other

/-- The call that is stopped is the one that throws what is kept. -/
lemma ThrowInv.top (inv : ThrowInv state) {library exception : ℕ} {rest : List Frame}
    (top : state.frames fiber = .call library (some exception) :: rest) :
    state.pending = some exception ∧ stopped rest = [] ∧
      ∀ other, other ≠ fiber → stopped (state.frames other) = [] := by
  have here : stopped (state.frames fiber) = exception :: stopped rest := by
    rw [top]
    rfl
  rcases inv with none | ⟨stands, kept, its, pending, others⟩
  · rw [none fiber] at here
    cases here
  · have same : fiber = stands := by
      by_contra apart
      rw [others fiber apart] at here
      cases here
    subst same
    rw [its] at here
    obtain ⟨rfl, below⟩ := List.cons.inj here
    exact ⟨pending, below.symm, others⟩

lemma ThrowInv.returns (inv : ThrowInv state) {library exception : ℕ} {rest : List Frame}
    (top : state.frames fiber = .call library (some exception) :: rest)
    (frames : after.frames = Function.update state.frames fiber rest) : ThrowInv after := by
  obtain ⟨-, below, others⟩ := inv.top top
  refine .inl fun other => ?_
  rw [frames]
  by_cases same : other = fiber
  · rw [same, Function.update_self]
    exact below
  · rw [Function.update_of_ne same]
    exact others other same

lemma ObjectInv.ends (inv : ObjectInv state) {session : ℕ}
    (sessions : after.sessions = Function.update state.sessions session
      { state.sessions session with active := false, made := [] })
    (closures : after.closures = state.closures.filter fun it => it.session ≠ session)
    (objects : after.objects = state.objects) (ids : after.ids = state.ids)
    (created : after.created = state.created) (tokens : after.tokens = state.tokens) :
    ObjectInv after := by
  have kept : ∀ it ∈ after.closures, it ∈ state.closures := by
    rw [closures]
    exact fun it member => (List.mem_filter.mp member).1
  constructor
  · intro other some
    rw [sessions] at some ⊢
    by_cases same : other = session
    · rw [same, Function.update_self] at some
      exact absurd rfl some
    · rw [Function.update_of_ne same] at some ⊢
      exact inv.active other some
  · intro other it member
    rw [sessions] at member
    by_cases same : other = session
    · rw [same, Function.update_self] at member
      cases member
    · rw [Function.update_of_ne same] at member
      obtain ⟨held, key⟩ := inv.made other it member
      rw [closures, ids]
      exact ⟨List.mem_filter.mpr ⟨held, by simpa using same⟩, key⟩
  · intro it member
    rw [objects, tokens]
    exact inv.live it (kept it member)
  · exact fun it member other member' => inv.once it (kept it member) other (kept other member')
  · rw [objects, ids]
    exact inv.apart
  · rw [objects, created]
    exact inv.created

lemma ObjectInv.creates (inv : ObjectInv state) {id : ℕ} (new : id ∉ state.objects.map state.ids) :
    ObjectInv { state with
      objects := state.created :: state.objects
      ids := Function.update state.ids state.created id
      created := state.created + 1 } := by
  have same : ∀ object ∈ state.objects,
      Function.update state.ids state.created id object = state.ids object :=
    fun object member => Function.update_of_ne (inv.created object member).ne _ _
  refine ⟨inv.active, fun session it member => ?_, fun it member => ?_, inv.once, ?_, ?_⟩
  · obtain ⟨held, key⟩ := inv.made session it member
    obtain ⟨slot, closure, -⟩ := inv.live _ held
    refine ⟨held, ?_⟩
    dsimp only at slot closure ⊢
    rw [same _ slot, same _ closure]
    exact key
  · obtain ⟨slot, closure, token⟩ := inv.live it member
    exact ⟨List.mem_cons_of_mem _ slot, List.mem_cons_of_mem _ closure, token⟩
  · intro object member other member' its
    dsimp only at its
    rcases List.mem_cons.mp member with rfl | old
    · rcases List.mem_cons.mp member' with rfl | old'
      · rfl
      · rw [Function.update_self, same other old'] at its
        exact absurd (List.mem_map.mpr ⟨other, old', its.symm⟩) new
    · rcases List.mem_cons.mp member' with rfl | old'
      · rw [Function.update_self, same object old] at its
        exact absurd (List.mem_map.mpr ⟨object, old, its⟩) new
      · rw [same object old, same other old'] at its
        exact inv.apart object old other old' its
  · intro object member
    rcases List.mem_cons.mp member with rfl | old
    · exact Nat.lt_succ_self _
    · exact (inv.created object old).trans (Nat.lt_succ_self _)

lemma ObjectInv.frees (inv : ObjectInv state) {object : ℕ}
    (free : ¬ ∃ it ∈ state.closures, it.value.slot = object ∨ it.value.closure = object) :
    ObjectInv { state with objects := state.objects.filter fun it => it ≠ object } := by
  refine ⟨inv.active, inv.made, fun it member => ?_, inv.once, ?_, ?_⟩
  · obtain ⟨slot, closure, token⟩ := inv.live it member
    refine ⟨List.mem_filter.mpr ⟨slot, ?_⟩, List.mem_filter.mpr ⟨closure, ?_⟩, token⟩
    · simpa using fun same => free ⟨it, member, .inl same⟩
    · simpa using fun same => free ⟨it, member, .inr same⟩
  · exact fun it member other member' =>
      inv.apart it (List.mem_filter.mp member).1 other (List.mem_filter.mp member').1
  · exact fun it member => inv.created it (List.mem_filter.mp member).1

lemma ObjectInv.implements (inv : ObjectInv state) {session slot closure : ℕ}
    (live : slot ∈ state.objects ∧ closure ∈ state.objects)
    (active : (state.sessions session).active = true)
    (tokens : after.tokens = Function.update state.tokens slot (state.tokens slot + 1))
    (closures : after.closures = ⟨⟨slot, state.tokens slot, closure⟩, session⟩ :: state.closures)
    (sessions : after.sessions = Function.update state.sessions session
      { state.sessions session with
        made := ((state.ids slot, state.ids closure), ⟨slot, state.tokens slot, closure⟩) ::
          (state.sessions session).made })
    (objects : after.objects = state.objects) (ids : after.ids = state.ids)
    (created : after.created = state.created) : ObjectInv after := by
  have apart : ∀ it ∈ state.closures, it.value.slot = slot →
      it.value.token ≠ state.tokens slot := by
    intro it member same
    have past := (inv.live it member).2.2
    rw [same] at past
    exact past.ne
  constructor
  · intro other some
    rw [sessions] at some ⊢
    by_cases same : other = session
    · rw [same, Function.update_self]
      exact active
    · rw [Function.update_of_ne same] at some ⊢
      exact inv.active other some
  · intro other it member
    rw [closures, ids]
    rw [sessions] at member
    have old : it ∈ (state.sessions other).made → ⟨it.2, other⟩ ∈
        (⟨⟨slot, state.tokens slot, closure⟩, session⟩ :: state.closures : List Kept) ∧
        it.1 = (state.ids it.2.slot, state.ids it.2.closure) :=
      fun its => ⟨List.mem_cons_of_mem _ (inv.made other it its).1, (inv.made other it its).2⟩
    by_cases same : other = session
    · subst same
      rw [Function.update_self] at member
      rcases List.mem_cons.mp member with rfl | its
      · exact ⟨List.mem_cons_self, rfl⟩
      · exact old its
    · rw [Function.update_of_ne same] at member
      exact old member
  · intro it member
    rw [closures] at member
    rw [objects, tokens]
    rcases List.mem_cons.mp member with rfl | its
    · refine ⟨live.1, live.2, ?_⟩
      dsimp only
      rw [Function.update_self]
      exact Nat.lt_succ_self _
    · obtain ⟨known, closed, past⟩ := inv.live it its
      refine ⟨known, closed, ?_⟩
      by_cases same : it.value.slot = slot
      · rw [same] at past ⊢
        rw [Function.update_self]
        exact past.trans (Nat.lt_succ_self _)
      · rw [Function.update_of_ne same]
        exact past
  · rw [closures]
    intro it member other member' slots tokens'
    rcases List.mem_cons.mp member with rfl | old
    · rcases List.mem_cons.mp member' with rfl | old'
      · rfl
      · exact absurd tokens'.symm (apart other old' slots.symm)
    · rcases List.mem_cons.mp member' with rfl | old'
      · exact absurd tokens' (apart it old slots)
      · exact inv.once it old other old' slots tokens'
  · rw [objects, ids]
    exact inv.apart
  · rw [objects, created]
    exact inv.created

end

section

variable {state after : State} {fiber : ℕ}

lemma ffi_ok {session : ℕ} (answered : state.ffi fiber session = .ok ()) :
    (state.sessions session).active = true ∧ (state.sessions session).fiber = fiber := by
  unfold State.ffi at answered
  split at answered
  · cases answered
  · rename_i active
    split at answered
    · cases answered
    · rename_i on
      exact ⟨by simpa using active, (not_not.mp on).symm⟩

/-- What a step that is allowed does keeps what holds of a state. -/
lemma Inv.tries (inv : Inv state) {act : Act} (allowed : act.Allowed state fiber)
    (done : state.tries fiber act = .ok after) : Inv after := by
  cases act with
  | opens library =>
    unfold State.tries at done
    dsimp only at done
    split at done
    · cases done
    · rename_i here
      cases done
      have running := allowed.resolve_left here
      refine ⟨inv.runs.opens here running rfl rfl ?_
        (fun other apart => Function.update_of_ne apart _ _) rfl rfl rfl, ?_, ?_⟩
      · dsimp only
        rw [Function.update_self]
        rfl
      · exact inv.throws.same rfl (update_same stopped rfl)
      · refine inv.objects.same (fun session => ?_) rfl rfl rfl rfl rfl
        dsimp only
        by_cases new : session = state.next
        · rw [new, Function.update_self]
          exact .inl rfl
        · rw [Function.update_of_ne new]
          exact .inr ⟨rfl, rfl⟩
  | ends =>
    unfold State.tries at done
    dsimp only at done
    split at done
    · rename_i library session scope rest top
      split at done
      · cases done
      · cases done
        refine ⟨inv.runs.ends top rfl rfl rfl rfl rfl rfl, ?_,
          inv.objects.ends rfl rfl rfl rfl rfl rfl⟩
        refine inv.throws.same rfl (update_same stopped ?_)
        rw [top]
        rfl
    · cases done
      exact inv
  | closes =>
    unfold State.tries at done
    dsimp only at done
    split at done
    · rename_i top
      cases done
      refine ⟨inv.runs.closes top rfl rfl rfl rfl rfl rfl, ?_,
        inv.objects.same (fun _ => .inr ⟨rfl, rfl⟩) rfl rfl rfl rfl rfl⟩
      refine inv.throws.same rfl (update_same stopped ?_)
      rw [top]
      rfl
    · cases done
      exact inv
  | calls library handles =>
    unfold State.tries at done
    dsimp only at done
    split at done
    · cases done
    · obtain ⟨-, done⟩ := Runs.checked_ok done
      obtain ⟨-, done⟩ := Runs.checked_ok done
      cases done
      exact inv.onFiber (fun _ => rfl) rfl
  | callsBack =>
    unfold State.tries at done
    dsimp only at done
    split at done
    · rename_i top
      cases done
      refine inv.onFiber (fun library => ?_) ?_
      · rw [top]
        rfl
      · rw [top]
        rfl
    · cases done
      exact inv
  | answers =>
    unfold State.tries at done
    dsimp only at done
    split at done
    · rename_i top
      cases done
      refine inv.onFiber (fun library => ?_) ?_
      · rw [top]
        rfl
      · rw [top]
        rfl
    · cases done
      exact inv
  | throws exception =>
    unfold State.tries at done
    dsimp only at done
    split at done
    · rename_i library rest top
      cases done
      refine ⟨inv.runs.same rfl rfl rfl rfl (fun _ => ⟨rfl, rfl, rfl⟩) fun library =>
        update_same (entries library) ?_, throwInv_throws allowed top rfl rfl,
        inv.objects.same (fun _ => .inr ⟨rfl, rfl⟩) rfl rfl rfl rfl rfl⟩
      rw [top]
      rfl
    · cases done
      exact inv
  | returns =>
    unfold State.tries at done
    dsimp only at done
    split at done
    · rename_i top
      cases done
      refine inv.onFiber (fun library => ?_) ?_
      · rw [top]
        rfl
      · rw [top]
        rfl
    · rename_i top
      cases done
      refine ⟨inv.runs.same rfl rfl rfl rfl (fun _ => ⟨rfl, rfl, rfl⟩) fun library =>
        update_same (entries library) ?_, inv.throws.returns top rfl,
        inv.objects.same (fun _ => .inr ⟨rfl, rfl⟩) rfl rfl rfl rfl rfl⟩
      rw [top]
      rfl
    · cases done
      exact inv
  | creates id =>
    unfold State.tries at done
    dsimp only at done
    split at done
    · cases done
      exact inv
    · rename_i new
      cases done
      exact ⟨inv.runs.same rfl rfl rfl rfl (fun _ => ⟨rfl, rfl, rfl⟩) fun _ _ => rfl,
        inv.throws.same rfl fun _ => rfl, inv.objects.creates new⟩
  | frees object =>
    unfold State.tries at done
    dsimp only at done
    split at done
    · cases done
      exact inv
    · rename_i free
      cases done
      exact ⟨inv.runs.same rfl rfl rfl rfl (fun _ => ⟨rfl, rfl, rfl⟩) fun _ _ => rfl,
        inv.throws.same rfl fun _ => rfl, inv.objects.frees free⟩
  | implements session slot closure =>
    unfold State.tries at done
    dsimp only at done
    split at done
    · cases done
      exact inv
    · rename_i live
      rw [not_or, not_not, not_not] at live
      split at done
      · cases done
        exact inv
      · obtain ⟨checked, done⟩ := Runs.checked_ok done
        cases done
        refine ⟨inv.runs.same rfl rfl rfl rfl (fun other => ?_) fun _ _ => rfl,
          inv.throws.same rfl fun _ => rfl,
          inv.objects.implements live (ffi_ok checked).1 rfl rfl rfl rfl rfl rfl⟩
        dsimp only
        by_cases same : other = session
        · rw [same, Function.update_self]
          exact ⟨rfl, rfl, rfl⟩
        · rw [Function.update_of_ne same]
          exact ⟨rfl, rfl, rfl⟩

lemma Inv.step (inv : Inv state) {act : Act} (allowed : act.Allowed state fiber) :
    Inv (state.step fiber act) := by
  unfold State.step
  cases done : state.tries fiber act with
  | ok after => exact inv.tries allowed done
  | error refused => exact inv

lemma Inv.run (inv : Inv state) {acts : List (ℕ × Act)} (allowed : AllAllowed state acts) :
    Inv (state.run acts) := by
  induction acts generalizing state with
  | nil => exact inv
  | cons act rest ih => exact ih (inv.step allowed.1) allowed.2

lemma inv_new : Inv .new := by
  refine ⟨?_, .inl fun _ => rfl, ?_⟩
  · constructor
    · exact fun _ _ _ => rfl
    · intro library entry member
      cases member
    · exact fun _ => rfl
    · exact fun _ => rfl
    · intro session active
      cases active
    · intro library session member
      cases member
    · exact fun _ => List.nodup_nil
  · constructor
    · exact fun session some => absurd rfl some
    · intro session it member
      cases member
    · intro it member
      cases member
    · intro it member
      cases member
    · intro object member
      cases member
    · intro object member
      cases member

end

/-- The sessions of a state are one stack a library, in step with the arena's scopes. -/
structure InStep (state : State) : Prop where
  /-- Where no scope of a library is still to be closed after its session, the sessions open are
      those of the runs going, in order, and the scopes open are the ones they stand on. -/
  sessions : ∀ library, (∀ entry ∈ state.entries library, entry.1 = false) →
    (state.opened library = (state.entries library).map fun entry => entry.2.1) ∧
      (state.arenas library).scopes.map Prod.fst =
        (state.entries library).map fun entry => entry.2.2
  /-- The scope a run is ended with is the innermost. -/
  closes : ∀ fiber library session scope rest,
    state.frames fiber = .ends library session scope :: rest →
      (Scopes.scopeClose (state.arenas library) scope).2 = true
  /-- A value is handed to its own library, on the fiber of the library's runs, while the session it
      was made in is open. -/
  handed : ∀ fiber session into, state.call fiber into = .ok () →
    state.borrow session into = .ok () →
      (state.sessions session).active = true ∧
        (state.sessions session).library = (state.sessions into).library ∧
        session ∈ state.opened (state.sessions into).library ∧
        (state.sessions session).fiber = fiber ∧
        state.holder (state.sessions into).library = fiber
  /-- A call throws what its own callback threw. -/
  thrown : ∀ fiber library exception rest,
    state.frames fiber = .call library (some exception) :: rest →
      state.failure = some exception
  /-- A function value of a session calls the closure it was made of. -/
  dispatched : ∀ session, ∀ it ∈ (state.sessions session).made,
    state.dispatch it.2.slot it.2.token = some it.2.closure
  /-- What a closure handed over again is found as was made of it. -/
  found : ∀ session slot closure value, slot ∈ state.objects → closure ∈ state.objects →
    state.functionOf session slot closure = some value →
      value.slot = slot ∧ value.closure = closure

lemma Inv.handed {state : State} (inv : Inv state) {fiber session into : ℕ}
    (called : state.call fiber into = .ok ()) (borrowed : state.borrow session into = .ok ()) :
    (state.sessions session).active = true ∧
      (state.sessions session).library = (state.sessions into).library ∧
      session ∈ state.opened (state.sessions into).library ∧
      (state.sessions session).fiber = fiber ∧
      state.holder (state.sessions into).library = fiber := by
  unfold State.call at called
  rcases reached : state.ffi fiber into with _ | _
  · rw [reached] at called
    cases called
  · obtain ⟨open_, on⟩ := ffi_ok reached
    unfold State.borrow at borrowed
    split at borrowed
    · cases borrowed
    · rename_i active
      have active : (state.sessions session).active = true := by simpa using active
      split at borrowed
      · cases borrowed
      · rename_i same
        have same := not_not.mp same
        have member := inv.runs.active session active
        rw [← same] at member
        have its := inv.runs.sessions _ session member
        have holder := (inv.runs.sessions _ into (inv.runs.active into open_)).2.2.1
        exact ⟨active, same.symm, member, its.2.2.1.trans (holder.symm.trans on),
          holder.symm.trans on⟩

lemma ObjectInv.dispatched {state : State} (inv : ObjectInv state) {session : ℕ}
    {it : (ℕ × ℕ) × Value} (member : it ∈ (state.sessions session).made) :
    state.dispatch it.2.slot it.2.token = some it.2.closure := by
  obtain ⟨held, -⟩ := inv.made session it member
  unfold State.dispatch
  cases found : state.closures.find? fun other =>
      other.value.slot = it.2.slot ∧ other.value.token = it.2.token with
  | none => exact absurd (List.find?_eq_none.mp found _ held) (by simp)
  | some other =>
    have its := List.find?_some found
    simp only [decide_eq_true_eq] at its
    rw [inv.once other (List.mem_of_find?_eq_some found) _ held its.1 its.2]
    rfl

lemma ObjectInv.found {state : State} (inv : ObjectInv state) {session slot closure : ℕ}
    {value : Value} (live : slot ∈ state.objects) (live' : closure ∈ state.objects)
    (found : state.functionOf session slot closure = some value) :
    value.slot = slot ∧ value.closure = closure := by
  obtain ⟨it, there, rfl⟩ := Option.map_eq_some_iff.mp found
  have key := List.find?_some there
  simp only [decide_eq_true_eq] at key
  obtain ⟨held, ids⟩ := inv.made session it (List.mem_of_find?_eq_some there)
  obtain ⟨slots, closures, -⟩ := inv.live _ held
  rw [key] at ids
  obtain ⟨first, second⟩ := Prod.mk.inj ids
  exact ⟨(inv.apart slot live it.2.slot slots first).symm,
    (inv.apart closure live' it.2.closure closures second).symm⟩

lemma Inv.inStep {state : State} (inv : Inv state) : InStep state := by
  constructor
  · intro library running
    have opened := inv.runs.opened library
    rw [filter_running running] at opened
    exact ⟨opened, inv.runs.scopes library⟩
  · intro fiber library session scope rest top
    exact (Runs.scopeClose_innermost (inv.runs.innermost top)).1
  · exact fun fiber session into => inv.handed
  · exact fun fiber library exception rest top => (inv.throws.top top).1
  · exact fun session it => inv.objects.dispatched
  · exact fun session slot closure value => inv.objects.found

/-- In every state reached by steps that are allowed, the sessions are one stack in step with the
    arena, whatever runs, calls and fibers there are. -/
theorem sessions_in_step (acts : List (ℕ × Act)) (allowed : AllAllowed .new acts) :
    InStep (State.new.run acts) :=
  (inv_new.run allowed).inStep

/-- A run of one fiber, and a callback that throws in a run inside it. -/
theorem sessions_in_step_throwing : InStep (State.new.run
    [(1, .opens 5), (1, .opens 5), (1, .calls 5 [0]), (1, .callsBack), (1, .throws 9)]) := by
  refine sessions_in_step _ ⟨.inr ?_, .inr ?_, trivial, trivial, ?_, trivial⟩
  · intro entry member
    cases member
  · intro entry member
    have its : entry ∈ [(false, 0, (0 : BitVec 64))] := member
    rw [List.mem_singleton.mp its]
  · intro other
    by_cases same : other = 1
    · rw [same]
      rfl
    · refine (update_same stopped ?_ other).trans ((update_same stopped ?_ other).trans
        ((update_same stopped ?_ other).trans (update_same stopped ?_ other)))
      all_goals rfl

/-- A fiber whose session lets go of what it kept is suspended there, and a run opened on another is
    inside the scope it closes when it goes on. -/
theorem scope_closed_outside : ¬ ∀ acts : List (ℕ × Act), InStep (State.new.run acts) := by
  intro always
  have inStep := always [(1, .opens 5), (1, .ends), (0, .opens 5)]
  have closed := inStep.closes 1 5 0 0 [] rfl
  exact Bool.false_ne_true closed

end SoutherNative.Sessions
