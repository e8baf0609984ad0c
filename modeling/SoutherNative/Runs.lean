import SoutherNative.Scopes

set_option autoImplicit false

/-!
# Runs and the scopes they stand on

A host's runs of any number of libraries on any number of threads. A run is opened over a scope of
its library's arena and holds room the library reads; what a host keeps of one after it ended is
checked each time it is used. What every thread still has to do on its way out is a stack, and the
links between runs, the root runs open and the scopes of each arena are held to that stack.
-/
namespace SoutherNative.Runs

structure Room where
  run : ℕ
  place : ℕ
  deriving DecidableEq

/-- A run. What tells its library's runtime from others is where the library's
    `souther_scope_open` is. -/
structure Run where
  identity : ℕ
  thread : ℕ
  live : Bool
  child : Option ℕ
  /-- How many calls into the library are going on in the run. -/
  calls : ℕ
  /-- What is released as the run ends. -/
  held : List Room

structure Ref where
  run : ℕ
  reads : List Room

inductive Capability
  | noValue
  | made (run : ℕ) (array : Option Room) (rooms : List Room) (requires : List Capability)

inductive Frame
  /-- A run ends, which was opened inside another or is a root run. -/
  | within (identity run : ℕ) (scope : BitVec 64) (outer : Option ℕ)
  /-- A call into a library ends, which reads these rooms until then. -/
  | call (run depth : ℕ) (reads : List Room)

structure State where
  roots : List (ℕ × ℕ)
  runs : ℕ → Run
  next : ℕ
  /-- Each library's arena and the scopes open in it, a thread. -/
  arenas : ℕ → ℕ → Scopes.Thread
  frames : ℕ → List Frame
  refs : List Ref
  capabilities : List Capability
  released : List Room

def State.new : State where
  roots := []
  runs := fun _ => ⟨0, 0, false, none, 0, []⟩
  next := 0
  arenas := fun _ _ => .new 0
  frames := fun _ => []
  refs := []
  capabilities := []
  released := []

def State.capability (state : State) (capability : ℕ) : Capability :=
  state.capabilities[capability]?.getD .noValue

inductive Refused
  | expired | runOnAnotherGoroutine | notTheInnermostRun | noValue | foreignHandle | alreadyRunning

section

variable (state : State) (thread : ℕ)

def State.checkReading (run : ℕ) : Except Refused Unit :=
  if (state.runs run).live = false then .error .expired
  else if (state.runs run).thread ≠ thread then .error .runOnAnotherGoroutine
  else .ok ()

def State.checkMaking (run : ℕ) : Except Refused Unit := do
  state.checkReading thread run
  if (state.runs run).child ≠ none then .error .notTheInnermostRun else .ok ()

/-- Where a value stands, to hand to a computation started in `run`: the value itself here. -/
def State.inRun (ref : Option Ref) (run : ℕ) : Except Refused Ref :=
  match ref with
  | none => .error .noValue
  | some ref => do
    if ref.run = run then state.checkMaking thread run
    else
      state.checkReading thread ref.run
      state.checkMaking thread run
    if (state.runs ref.run).identity ≠ (state.runs run).identity then .error .foreignHandle
    else .ok ref

def Capability.check : Capability → Except Refused Unit
  | .noValue => .error .noValue
  | .made run _ _ _ => state.checkReading thread run

mutual
def Capability.ofRuntime (identity : ℕ) : Capability → Except Refused Bool
  | .noValue => .ok false
  | .made run _ _ requires =>
    if (state.runs run).identity ≠ identity then .ok false
    else Capability.ofRuntimeEach identity requires

def Capability.ofRuntimeEach (identity : ℕ) : List Capability → Except Refused Bool
  | [] => .ok true
  | required :: rest => do
    required.check state thread
    if ← required.ofRuntime identity then Capability.ofRuntimeEach identity rest else .ok false
end

mutual
def Capability.reads : Capability → List Room
  | .noValue => []
  | .made _ array rooms requires => array.toList ++ rooms ++ Capability.readsEach requires

def Capability.readsEach : List Capability → List Room
  | [] => []
  | required :: rest => required.reads ++ Capability.readsEach rest
end

/-- What a call of the behavior in `run` is handed first: what the library reads through it. -/
def Capability.requirements (capability : Capability) (run : ℕ) : Except Refused (List Room) := do
  capability.check state thread
  if ← capability.ofRuntime state thread (state.runs run).identity then .ok capability.reads
  else .error .foreignHandle

def State.innermostFrom : ℕ → ℕ → ℕ
  | 0, run => run
  | fuel + 1, run =>
    match (state.runs run).child with
    | none => run
    | some child => State.innermostFrom fuel child

def State.innermost (run : ℕ) : ℕ := state.innermostFrom state.next run

def State.host (origin : ℕ) : Option ℕ :=
  if (state.runs origin).live = false ∨ (state.runs origin).thread ≠ thread then none
  else
    let inner := state.innermost origin
    if (state.runs inner).calls = 0 then none else some inner

def State.onRun (run : ℕ) (change : Run → Run) : State :=
  { state with runs := Function.update state.runs run (change (state.runs run)) }

def State.onStack (stack : List Frame) : State :=
  { state with frames := Function.update state.frames thread stack }

/-- A library's scope opened on the thread, and what it was answered. The tokens are one count for
    every thread of the library. -/
def State.scopeOpen (identity : ℕ) : State × BitVec 64 :=
  let (opened, scope) := Scopes.scopeOpen (state.arenas identity thread)
  ({ state with arenas := fun library on =>
      if library = identity then
        if on = thread then opened else { state.arenas library on with tokens := opened.tokens }
      else state.arenas library on }, scope)

def State.scopeClose (identity : ℕ) (scope : BitVec 64) : State × Bool :=
  let (closed, done) := Scopes.scopeClose (state.arenas identity thread) scope
  ({ state with arenas := fun library on =>
      if library = identity ∧ on = thread then closed else state.arenas library on }, done)

def State.enter (identity : ℕ) (outer : Option ℕ) : State :=
  let (state, scope) := state.scopeOpen thread identity
  { state with
    runs := Function.update state.runs state.next ⟨identity, thread, true, none, 0, []⟩
    next := state.next + 1
    frames := Function.update state.frames thread
      (.within identity state.next scope outer :: state.frames thread) }

def State.leave (identity run : ℕ) (scope : BitVec 64) (outer : Option ℕ) : State :=
  let state := state.onRun run fun it => { it with live := false }
  let (state, _) := state.scopeClose thread identity scope
  let state := { state with released := (state.runs run).held ++ state.released }
  let state := state.onRun run fun it => { it with calls := 0, held := [] }
  match outer with
  | some outer => state.onRun outer fun it => { it with child := none }
  | none => { state with roots := state.roots.erase (identity, thread) }

def State.room (run count : ℕ) : State × List Room :=
  let rooms := (List.range count).map fun place => ⟨run, (state.runs run).held.length + place⟩
  (state.onRun run fun it => { it with held := it.held ++ rooms }, rooms)

end

/-- What a program does on a thread, or what code of a library it called does there. A value or a
    capability is one of those made so far, and otherwise one that never was. -/
inductive Act
  | runs (identity : ℕ)
  | scopes (run : ℕ)
  /-- What is innermost of the runtime's functions on this thread returns, or panics. -/
  | exits
  | calls (run : ℕ) (capability : Option ℕ) (handed : List ℕ)
  /-- The library makes a value in the call it is in. -/
  | makes (reads : List Room)
  /-- A part of a value is read. -/
  | parts (ref : ℕ) (reads : List Room)
  /-- An implementation made in `origin` answers a value to the call it was called back from. -/
  | answers (origin ref : ℕ)
  | binds (run : ℕ) (requires : List ℕ) (required : Bool)
  | implements (run : ℕ)
  /-- A function of the host's own is handed over for the first time in the run. One handed over
      again is the value made then. -/
  | hostFunction (run : ℕ)

def State.tries (state : State) (thread : ℕ) : Act → Except Refused State
  | .runs identity =>
    if (identity, thread) ∈ state.roots then .error .alreadyRunning
    else
      let state := { state with roots := state.roots ++ [(identity, thread)] }
      .ok (state.enter thread identity none)
  | .scopes run => do
    state.checkMaking thread run
    let state := state.onRun run fun it => { it with child := some state.next }
    return state.enter thread (state.runs run).identity (some run)
  | .exits =>
    match state.frames thread with
    | [] => .ok state
    | .call run depth _ :: rest =>
      .ok ((state.onRun run fun it => { it with calls := depth }).onStack thread rest)
    | .within identity run scope outer :: rest =>
      .ok ((state.leave thread identity run scope outer).onStack thread rest)
  | .calls run capability handed => do
    state.checkMaking thread run
    let required ← match capability with
      | none => pure []
      | some capability => (state.capability capability).requirements state thread run
    let handed ← handed.mapM fun ref => state.inRun thread state.refs[ref]? run
    let frame := .call run (state.runs run).calls (required ++ handed.flatMap Ref.reads)
    return (state.onRun run fun it => { it with calls := it.calls + 1 }).onStack thread
      (frame :: state.frames thread)
  | .makes reads =>
    match state.frames thread with
    | .call run _ there :: _ =>
      if reads ⊆ there then .ok { state with refs := state.refs ++ [⟨run, reads⟩] }
      else .ok state
    | _ => .ok state
  | .parts ref reads =>
    match state.refs[ref]? with
    | none => .error .noValue
    | some ref => do
      state.checkReading thread ref.run
      if reads ⊆ ref.reads then return { state with refs := state.refs ++ [⟨ref.run, reads⟩] }
      else return state
  | .answers origin ref =>
    match state.host thread origin, state.frames thread with
    | some inner, .call run depth there :: rest =>
      if run = inner then do
        let ref ← state.inRun thread state.refs[ref]? inner
        return state.onStack thread (.call run depth (there ++ ref.reads) :: rest)
      else .ok state
    | _, _ => .ok state
  | .binds run requires required => do
    state.checkMaking thread run
    let (state, array) := state.room run (if requires = [] then 0 else 1)
    let (state, rooms) := state.room run (if required then 1 else 0)
    return { state with capabilities := state.capabilities ++
      [.made run array.head? rooms (requires.map state.capability)] }
  | .implements run => do
    state.checkMaking thread run
    let (state, rooms) := state.room run 3
    return { state with capabilities := state.capabilities ++ [.made run none rooms []] }
  | .hostFunction run => do
    state.checkMaking thread run
    let (state, rooms) := state.room run 2
    return { state with refs := state.refs ++ [⟨run, rooms⟩] }

def State.step (state : State) (thread : ℕ) (act : Act) : State :=
  match state.tries thread act with
  | .ok after => after
  | .error _ => state

def State.run (state : State) (acts : List (ℕ × Act)) : State :=
  acts.foldl (fun state act => state.step act.1 act.2) state

def opensOf (identity : ℕ) : List Frame → List ℕ
  | [] => []
  | .within other run _ _ :: rest =>
    if other = identity then run :: opensOf identity rest else opensOf identity rest
  | .call .. :: rest => opensOf identity rest

def scopesOf (identity : ℕ) : List Frame → List (BitVec 64)
  | [] => []
  | .within other _ scope _ :: rest =>
    if other = identity then scope :: scopesOf identity rest else scopesOf identity rest
  | .call .. :: rest => scopesOf identity rest

def openIn : List Frame → List ℕ
  | [] => []
  | .within _ run _ _ :: rest => run :: openIn rest
  | .call .. :: rest => openIn rest

def callsOf (run : ℕ) : List Frame → ℕ
  | [] => 0
  | .within .. :: rest => callsOf run rest
  | .call other _ _ :: rest => if other = run then callsOf run rest + 1 else callsOf run rest

/-- Room that is held by a run open on a thread, one of those up to `bound`. -/
def Reaches (state : State) (thread bound : ℕ) (room : Room) : Prop :=
  (state.runs room.run).live = true ∧ (state.runs room.run).thread = thread ∧
    room.run ≤ bound ∧ room ∈ (state.runs room.run).held

def Placed (state : State) (thread : ℕ) : List Frame → Prop
  | [] => True
  | .within identity run _ outer :: rest =>
    (state.runs run).identity = identity ∧ (state.runs run).thread = thread ∧
      (state.runs run).live = true ∧ run < state.next ∧ (∀ other ∈ openIn rest, other < run) ∧
      outer = (opensOf identity rest).head? ∧ Placed state thread rest
  | .call run depth reads :: rest =>
    run ∈ openIn rest ∧ depth = callsOf run rest ∧ (∀ room ∈ reads, Reaches state thread run room) ∧
      Placed state thread rest

def Linked (state : State) : Option ℕ → List ℕ → Prop
  | _, [] => True
  | inside, run :: rest => (state.runs run).child = inside ∧ Linked state (some run) rest

/-- A thread of a state, whose stack is this: links, scopes, frames and root runs are what the stack
    says. -/
structure Stands (state : State) (thread : ℕ) (stack : List Frame) : Prop where
  placed : Placed state thread stack
  linked : ∀ identity, Linked state none (opensOf identity stack)
  scopes : ∀ identity, (state.arenas identity thread).scopes.map Prod.fst = scopesOf identity stack
  counted : ∀ run ∈ openIn stack, (state.runs run).calls = callsOf run stack
  roots : ∀ identity, (identity, thread) ∈ state.roots ↔ opensOf identity stack ≠ []

def Ref.Stands (state : State) (ref : Ref) : Prop :=
  ref.run < state.next ∧ ((state.runs ref.run).live = true → ∀ room ∈ ref.reads,
    Reaches state (state.runs ref.run).thread ref.run room)

def Capability.Stands (state : State) : Capability → Prop
  | .noValue => True
  | .made run array rooms requires => run < state.next ∧
      ((state.runs run).live = true → ∀ room ∈ array.toList ++ rooms,
        room.run = run ∧ room ∈ (state.runs run).held) ∧
      ∀ required ∈ requires, required = .noValue ∨ required ∈ state.capabilities

structure Inv (state : State) : Prop where
  stands : ∀ thread, Stands state thread (state.frames thread)
  live : ∀ run, (state.runs run).live = true → run ∈ openIn (state.frames (state.runs run).thread)
  nodup : state.roots.Nodup
  holds : ∀ run, ∀ room ∈ (state.runs run).held, room.run = run
  refs : ∀ ref ∈ state.refs, ref.Stands state
  capabilities : ∀ capability ∈ state.capabilities, capability.Stands state
  released : ∀ room ∈ state.released, (state.runs room.run).live = false ∧ room.run < state.next

lemma openIn_of_opensOf {identity run : ℕ} {stack : List Frame}
    (opened : run ∈ opensOf identity stack) : run ∈ openIn stack := by
  induction stack with
  | nil => exact opened
  | cons frame rest ih =>
    cases frame with
    | within other run' scope outer =>
      unfold opensOf at opened
      unfold openIn
      split at opened
      · rcases List.mem_cons.mp opened with rfl | inside
        · simp
        · exact List.mem_cons_of_mem _ (ih inside)
      · exact List.mem_cons_of_mem _ (ih opened)
    | call run' depth reads => exact ih opened

lemma opensOf_iff {state : State} {thread identity run : ℕ} {stack : List Frame}
    (placed : Placed state thread stack) :
    run ∈ opensOf identity stack ↔ run ∈ openIn stack ∧ (state.runs run).identity = identity := by
  induction stack with
  | nil => simp [opensOf, openIn]
  | cons frame rest ih =>
    cases frame with
    | within other run' scope outer =>
      obtain ⟨of, -, -, -, -, -, below⟩ := placed
      unfold opensOf openIn
      by_cases same : other = identity
      · rw [if_pos same, List.mem_cons, List.mem_cons, ih below]
        constructor
        · rintro (rfl | ⟨inside, runs⟩)
          · exact ⟨.inl rfl, of.trans same⟩
          · exact ⟨.inr inside, runs⟩
        · rintro ⟨rfl | inside, runs⟩
          · exact .inl rfl
          · exact .inr ⟨inside, runs⟩
      · rw [if_neg same, List.mem_cons, ih below]
        constructor
        · rintro ⟨inside, runs⟩
          exact ⟨.inr inside, runs⟩
        · rintro ⟨rfl | inside, runs⟩
          · exact absurd (of.symm.trans runs) same
          · exact ⟨inside, runs⟩
    | call run' depth reads => exact ih placed.2.2.2

lemma Placed.opened {state : State} {thread run : ℕ} {stack : List Frame}
    (placed : Placed state thread stack) (opened : run ∈ openIn stack) :
    (state.runs run).thread = thread ∧ (state.runs run).live = true ∧ run < state.next := by
  induction stack with
  | nil => cases opened
  | cons frame rest ih =>
    cases frame with
    | within other run' scope outer =>
      obtain ⟨-, on, live, made, -, -, below⟩ := placed
      rcases List.mem_cons.mp opened with rfl | inside
      · exact ⟨on, live, made⟩
      · exact ih below inside
    | call run' depth reads => exact ih placed.2.2.2 opened

lemma callsOf_eq_zero {state : State} {thread run : ℕ} {stack : List Frame}
    (placed : Placed state thread stack) (outside : run ∉ openIn stack) :
    callsOf run stack = 0 := by
  induction stack with
  | nil => rfl
  | cons frame rest ih =>
    cases frame with
    | within other run' scope outer =>
      obtain ⟨-, -, -, -, -, -, below⟩ := placed
      exact ih below fun inside => outside (List.mem_cons_of_mem _ inside)
    | call run' depth reads =>
      unfold callsOf
      rw [if_neg fun same : run' = run => outside (same ▸ placed.1)]
      exact ih placed.2.2.2 outside

lemma opensOf_sorted {state : State} {thread : ℕ} {stack : List Frame}
    (placed : Placed state thread stack) (identity : ℕ) :
    (opensOf identity stack).Pairwise (· > ·) := by
  induction stack with
  | nil => exact .nil
  | cons frame rest ih =>
    cases frame with
    | within other run scope outer =>
      obtain ⟨-, -, -, -, inner, -, below⟩ := placed
      unfold opensOf
      split
      · exact .cons (fun other inside => inner other (openIn_of_opensOf inside)) (ih below)
      · exact ih below
    | call run depth reads => exact ih placed.2.2.2

lemma Linked.child_cases {state : State} {inside : Option ℕ} {runs : List ℕ}
    (linked : Linked state inside runs) (sorted : runs.Pairwise (· > ·)) {run : ℕ}
    (opened : run ∈ runs) :
    (runs.head? = some run ∧ (state.runs run).child = inside) ∨
      ∃ child ∈ runs, run < child ∧ (state.runs run).child = some child := by
  induction runs generalizing inside with
  | nil => cases opened
  | cons first rest ih =>
    obtain ⟨its, links⟩ := linked
    rcases List.mem_cons.mp opened with rfl | further
    · exact .inl ⟨rfl, its⟩
    · rcases ih links sorted.of_cons further with ⟨-, child⟩ | ⟨child, member, past, its'⟩
      · exact .inr ⟨first, by simp, List.rel_of_pairwise_cons sorted further, child⟩
      · exact .inr ⟨child, List.mem_cons_of_mem _ member, past, its'⟩

lemma le_head {runs : List ℕ} (sorted : runs.Pairwise (· > ·)) {innermost run : ℕ}
    (head : runs.head? = some innermost) (opened : run ∈ runs) : run ≤ innermost := by
  cases runs with
  | nil => cases opened
  | cons first rest =>
    cases head
    rcases List.mem_cons.mp opened with rfl | further
    · exact le_rfl
    · exact (List.rel_of_pairwise_cons sorted further).le

lemma checked_ok {ε α : Type} {check : Except ε Unit} {next : Unit → Except ε α} {answer : α}
    (done : check >>= next = .ok answer) : check = .ok () ∧ next () = .ok answer := by
  cases check with
  | error refused => cases done
  | ok _ => exact ⟨rfl, done⟩

section

variable {state : State} {thread run : ℕ}

lemma checkReading_ok (checked : state.checkReading thread run = .ok ()) :
    (state.runs run).live = true ∧ (state.runs run).thread = thread := by
  unfold State.checkReading at checked
  split at checked
  · cases checked
  · rename_i live
    split at checked
    · cases checked
    · rename_i on
      exact ⟨by simpa using live, by simpa using on⟩

lemma checkMaking_ok (checked : state.checkMaking thread run = .ok ()) :
    (state.runs run).live = true ∧ (state.runs run).thread = thread ∧
      (state.runs run).child = none := by
  unfold State.checkMaking at checked
  obtain ⟨reading, innermost⟩ := checked_ok checked
  obtain ⟨live, on⟩ := checkReading_ok reading
  refine ⟨live, on, ?_⟩
  by_contra some
  rw [if_pos some] at innermost
  cases innermost

/-- A run that is read is on its thread's stack. -/
lemma Inv.opened (inv : Inv state) (live : (state.runs run).live = true)
    (on : (state.runs run).thread = thread) :
    run ∈ opensOf (state.runs run).identity (state.frames thread) := by
  have there := inv.live run live
  rw [on] at there
  exact (opensOf_iff (inv.stands thread).placed).mpr ⟨there, rfl⟩

/-- A run something is made through is the innermost of its runtime on its thread. -/
lemma Inv.innermost (inv : Inv state) (checked : state.checkMaking thread run = .ok ()) :
    (opensOf (state.runs run).identity (state.frames thread)).head? = some run := by
  obtain ⟨live, on, child⟩ := checkMaking_ok checked
  have stands := inv.stands thread
  rcases (stands.linked _).child_cases (opensOf_sorted stands.placed _) (inv.opened live on) with
    ⟨head, -⟩ | ⟨inner, -, -, its⟩
  · exact head
  · rw [child] at its
    cases its

lemma inRun_ok {ref : Option Ref} {answered : Ref}
    (handed : state.inRun thread ref run = .ok answered) :
    ref = some answered ∧ (state.runs answered.run).live = true ∧
      (state.runs answered.run).thread = thread ∧
      (state.runs answered.run).identity = (state.runs run).identity ∧
      state.checkMaking thread run = .ok () := by
  cases ref with
  | none => cases handed
  | some ref =>
    unfold State.inRun at handed
    dsimp only at handed
    have finish : (state.runs ref.run).live = true → (state.runs ref.run).thread = thread →
        state.checkMaking thread run = .ok () →
        (if (state.runs ref.run).identity ≠ (state.runs run).identity then
          Except.error Refused.foreignHandle else Except.ok ref) = Except.ok answered →
        some ref = some answered ∧ (state.runs answered.run).live = true ∧
          (state.runs answered.run).thread = thread ∧
          (state.runs answered.run).identity = (state.runs run).identity ∧
          state.checkMaking thread run = .ok () := by
      intro live on making last
      split at last
      · cases last
      · rename_i same
        cases last
        exact ⟨rfl, live, on, by simpa using same, making⟩
    by_cases own : ref.run = run
    · rw [if_pos own] at handed
      obtain ⟨making, last⟩ := checked_ok handed
      obtain ⟨live, on, -⟩ := checkMaking_ok making
      rw [← own] at live on
      exact finish live on making last
    · rw [if_neg own] at handed
      obtain ⟨reading, checked⟩ := checked_ok handed
      obtain ⟨making, last⟩ := checked_ok checked
      obtain ⟨live, on⟩ := checkReading_ok reading
      exact finish live on making last

lemma Inv.le_innermost (inv : Inv state) (checked : state.checkMaking thread run = .ok ())
    {other : ℕ} (live : (state.runs other).live = true) (on : (state.runs other).thread = thread)
    (same : (state.runs other).identity = (state.runs run).identity) : other ≤ run := by
  have opened := inv.opened live on
  rw [same] at opened
  exact le_head (opensOf_sorted (inv.stands thread).placed _) (inv.innermost checked) opened

end

lemma Reaches.le {state : State} {thread bound further : ℕ} {room : Room}
    (reaches : Reaches state thread bound room) (le : bound ≤ further) :
    Reaches state thread further room :=
  ⟨reaches.1, reaches.2.1, reaches.2.2.1.trans le, reaches.2.2.2⟩

lemma Inv.inRun_reads {state : State} {thread run : ℕ} {ref : ℕ} {answered : Ref}
    (inv : Inv state) (handed : state.inRun thread state.refs[ref]? run = .ok answered) :
    ∀ room ∈ answered.reads, Reaches state thread run room := by
  intro room member
  obtain ⟨its, live, on, same, making⟩ := inRun_ok handed
  have reaches := (inv.refs answered (List.mem_of_getElem? its)).2 live room member
  rw [on] at reaches
  exact reaches.le (inv.le_innermost making live on same)

mutual
def Capability.OpenIn (opened : List ℕ) : Capability → Prop
  | .noValue => False
  | .made run _ _ requires => run ∈ opened ∧ Capability.OpenInEach opened requires

def Capability.OpenInEach (opened : List ℕ) : List Capability → Prop
  | [] => True
  | required :: rest => required.OpenIn opened ∧ Capability.OpenInEach opened rest
end

section

variable {state : State} {thread identity : ℕ}

mutual
lemma openIn_of_ofRuntime (inv : Inv state) : ∀ capability : Capability,
    capability.check state thread = .ok () → capability.ofRuntime state thread identity = .ok true →
      capability.OpenIn (opensOf identity (state.frames thread))
  | .noValue => fun checked _ => nomatch checked
  | .made run array rooms requires => by
    intro checked of
    unfold Capability.check at checked
    unfold Capability.ofRuntime at of
    unfold Capability.OpenIn
    obtain ⟨live, on⟩ := checkReading_ok checked
    by_cases same : (state.runs run).identity = identity
    · rw [if_neg (by simpa using same)] at of
      have opened := inv.opened live on
      rw [same] at opened
      exact ⟨opened, openIn_of_ofRuntimeEach inv requires of⟩
    · rw [if_pos same] at of
      cases of

lemma openIn_of_ofRuntimeEach (inv : Inv state) : ∀ capabilities : List Capability,
    Capability.ofRuntimeEach state thread identity capabilities = .ok true →
      Capability.OpenInEach (opensOf identity (state.frames thread)) capabilities
  | [] => fun _ => by
    unfold Capability.OpenInEach
    trivial
  | required :: rest => by
    intro of
    unfold Capability.ofRuntimeEach at of
    unfold Capability.OpenInEach
    rcases checked : required.check state thread with _ | _
    · rw [checked] at of
      cases of
    · rcases its : required.ofRuntime state thread identity with _ | _ | _
      · rw [checked, its] at of
        cases of
      · rw [checked, its] at of
        cases of
      · rw [checked, its] at of
        exact ⟨openIn_of_ofRuntime inv required checked its, openIn_of_ofRuntimeEach inv rest of⟩
end

mutual
lemma reaches_of_openIn (inv : Inv state) {innermost : ℕ}
    (head : (opensOf identity (state.frames thread)).head? = some innermost) :
    ∀ capability ∈ state.capabilities,
      capability.OpenIn (opensOf identity (state.frames thread)) →
        ∀ room ∈ capability.reads, Reaches state thread innermost room
  | .noValue => by
    intro member opened
    unfold Capability.OpenIn at opened
    exact opened.elim
  | .made run array rooms requires => by
    intro member opened room reads
    unfold Capability.OpenIn at opened
    unfold Capability.reads at reads
    obtain ⟨its, each⟩ := opened
    have stands := inv.stands thread
    have live := stands.placed.opened (openIn_of_opensOf its)
    have made := inv.capabilities _ member
    unfold Capability.Stands at made
    rcases List.mem_append.mp reads with own | required
    · obtain ⟨of, held⟩ := made.2.1 live.2.1 room own
      unfold Reaches
      rw [of]
      exact ⟨live.2.1, live.1, le_head (opensOf_sorted stands.placed _) head its, held⟩
    · exact reaches_of_openInEach inv head requires made.2.2 each room required

lemma reaches_of_openInEach (inv : Inv state) {innermost : ℕ}
    (head : (opensOf identity (state.frames thread)).head? = some innermost) :
    ∀ capabilities : List Capability,
      (∀ required ∈ capabilities, required = .noValue ∨ required ∈ state.capabilities) →
      Capability.OpenInEach (opensOf identity (state.frames thread)) capabilities →
        ∀ room ∈ Capability.readsEach capabilities, Reaches state thread innermost room
  | [] => by
    intro _ _ room reads
    unfold Capability.readsEach at reads
    cases reads
  | required :: rest => by
    intro made opened room reads
    unfold Capability.OpenInEach at opened
    unfold Capability.readsEach at reads
    rcases List.mem_append.mp reads with own | further
    · rcases made required (by simp) with never | member
      · rw [never] at opened
        unfold Capability.OpenIn at opened
        exact opened.1.elim
      · exact reaches_of_openIn inv head required member opened.1 room own
    · exact reaches_of_openInEach inv head rest
        (fun other inside => made other (List.mem_cons_of_mem _ inside)) opened.2 room further
end

lemma requirements_ok {capability : Capability} {run : ℕ} {reads : List Room} (inv : Inv state)
    (answered : capability.requirements state thread run = .ok reads) :
    capability.OpenIn (opensOf (state.runs run).identity (state.frames thread)) ∧
      reads = capability.reads := by
  unfold Capability.requirements at answered
  rcases checked : capability.check state thread with _ | _
  · rw [checked] at answered
    cases answered
  · rcases its : capability.ofRuntime state thread (state.runs run).identity with _ | _ | _
    · rw [checked, its] at answered
      cases answered
    · rw [checked, its] at answered
      cases answered
    · rw [checked, its] at answered
      cases answered
      exact ⟨openIn_of_ofRuntime inv capability checked its, rfl⟩

end

lemma innermostFrom_eq {state : State} {runs : List ℕ} (linked : Linked state none runs)
    (sorted : runs.Pairwise (· > ·)) (fuel : ℕ) {run : ℕ} (opened : run ∈ runs)
    (made : ∀ other ∈ runs, other < run + fuel) :
    runs.head? = some (state.innermostFrom fuel run) := by
  induction fuel generalizing run with
  | zero => exact absurd (made run opened) (by omega)
  | succ fuel ih =>
    unfold State.innermostFrom
    rcases linked.child_cases sorted opened with ⟨head, child⟩ | ⟨child, member, past, its⟩
    · rw [child]
      exact head
    · rw [its]
      refine ih member fun other inside => ?_
      have := made other inside
      omega

lemma Inv.host {state : State} {thread origin inner : ℕ} (inv : Inv state)
    (lent : state.host thread origin = some inner) :
    (opensOf (state.runs origin).identity (state.frames thread)).head? = some inner := by
  unfold State.host at lent
  split at lent
  · cases lent
  · rename_i reading
    simp only [not_or, Bool.not_eq_false, ne_eq, not_not] at reading
    have stands := inv.stands thread
    have opened := inv.opened reading.1 reading.2
    have head := innermostFrom_eq (stands.linked _) (opensOf_sorted stands.placed _) state.next
      opened fun other inside => by
        have := (stands.placed.opened (openIn_of_opensOf inside)).2.2
        omega
    dsimp only at lent
    split at lent
    · cases lent
    · cases lent
      exact head

end SoutherNative.Runs
