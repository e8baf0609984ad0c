import Mathlib

set_option autoImplicit false

/-!
# Calls, and what is called back in them

A host calls into a library, and the library calls back what the host implements, which calls into
libraries in turn. One runtime keeps what a callback left in a stack of the calls open on its
thread, and the other in a frame of the run the call was made in. Both are held to what code means
where a failure is a part of the call it was raised in and nothing is kept anywhere.
-/
namespace SoutherNative.Callbacks

mutual
inductive Failure
  | host (error : Error)
  | protocolViolation
  | unbound
  | foreign
  | abort (status : ℕ) (name : Option ℕ)
inductive Error
  | plain (error : ℕ)
  | failure (failure : Failure)
end

inductive CallbackFailure
  | crossing (failure : Failure)
  | host (error : Error)

inductive Caught
  | failed (failure : CallbackFailure)
  | panicked (payload : ℕ)

inductive Ended
  | answered
  | failed (failure : CallbackFailure)
  | panicked (payload : ℕ)

inductive CallEnded
  | answered
  | failed (failure : Failure)
  | panicked (payload : ℕ)

/-- What a library's statuses are numbered. -/
structure Statuses where
  answered : ℕ
  unbound : ℕ
  protocolViolation : ℕ
  hostException : ℕ
  named : ℕ → Option ℕ

def Ended.caught : Ended → Option Caught
  | .answered => none
  | .failed failure => some (.failed failure)
  | .panicked payload => some (.panicked payload)

inductive Side
  | native | host

/-- What a library does in a call into it, and what a host does: each step's outcome is handed to
    what is done next. -/
inductive Code : Side → Type
  /-- The library's computation is done. -/
  | answers (status : ℕ) : Code .native
  /-- The library calls back what the host implements, which is lent a run, and is told a status. -/
  | callsBack (body : ℕ → Code .host) (next : ℕ → Code .native) : Code .native
  | ends (ended : Ended) : Code .host
  /-- A call into a library, through the innermost run of it that is open. -/
  | calls (library : ℕ) (native : Code .native) (next : CallEnded → Code .host) : Code .host
  /-- A run inside the innermost run of a library. -/
  | scopes (library : ℕ) (inner : ℕ → Code .host) (next : Ended → Code .host) : Code .host
  /-- A root run of a library, or that one is open already. -/
  | opens (library : ℕ) (inner : ℕ → Code .host) (next : Option Ended → Code .host) : Code .host
  /-- A library's implementation reached from a host's code and not from the library's own
      computation: whatever calls are open. -/
  | strays (library : ℕ) (body : ℕ → Code .host) (next : ℕ → Code .host) : Code .host

abbrev Answer : Side → Type
  | .native => ℕ
  | .host => Ended

def innermostOf (runs : List (ℕ × ℕ)) (library : ℕ) : Option ℕ :=
  (runs.find? fun run => run.1 = library).map Prod.snd

def misuse : Ended := .panicked 0

abbrev Lending : Type := List (ℕ × ℕ) → List (ℕ × ℕ) → ℕ → Option (ℕ × ℕ)

def callInto : Lending
  | [], _, _ => none
  | (into, run) :: outer, runs, library =>
    if into = library then some (outer.length, run) else callInto outer runs library

def topCall : Lending
  | [], _, _ => none
  | (into, run) :: outer, _, library => if into = library then some (outer.length, run) else none

def callIn : List (ℕ × ℕ) → ℕ → Option ℕ
  | [], _ => none
  | (_, made) :: outer, run => if made = run then some outer.length else callIn outer run

def runCall : Lending := fun opened runs library =>
  (innermostOf runs library).bind fun run => (callIn opened run).map fun depth => (depth, run)

section

variable (statuses : Statuses)

def Statuses.comesTo (statuses : Statuses) (status : ℕ) : Option Caught → CallEnded
  | some (.failed (.crossing failure)) => .failed failure
  | some (.failed (.host error)) => .failed (.host error)
  | some (.panicked payload) => .panicked payload
  | none =>
    if status = statuses.answered then .answered
    else if status = statuses.hostException ∨ status = statuses.protocolViolation then
      .failed .protocolViolation
    else if status = statuses.unbound then .failed .unbound
    else .failed (.abort status (statuses.named status))

def Statuses.told (statuses : Statuses) (ended : Ended) : ℕ :=
  match ended.caught with
  | none => statuses.answered
  | some _ => statuses.hostException

/-- What a callback that ended so leaves for the call inside `depth` others. -/
def Ended.left (ended : Ended) (depth : ℕ) : List (ℕ × Caught) :=
  ended.caught.toList.map fun caught => (depth, caught)

/-- What code comes to, what its callbacks left for each of the calls open, the first left first,
    and the next run to be opened. What is left is nowhere but here. -/
structure Meant (side : Side) where
  answer : Answer side
  left : List (ℕ × Caught)
  next : ℕ

/-- What code means: a callback leaves what it ends with for the call it is of, and a call ends with
    the first thing left for it. -/
def Code.means (lends : Lending) :
    {side : Side} → Code side → List (ℕ × ℕ) → List (ℕ × ℕ) → ℕ → Meant side
  | _, .answers status, _, _, next => ⟨status, [], next⟩
  | _, .callsBack body rest, opened, runs, next =>
    match opened with
    | [] => (rest statuses.hostException).means lends opened runs next
    | (_, run) :: outer =>
      let back := (body run).means lends opened runs next
      let after := (rest (statuses.told back.answer)).means lends opened runs back.next
      ⟨after.answer, back.left ++ back.answer.left outer.length ++ after.left, after.next⟩
  | _, .ends ended, _, _, next => ⟨ended, [], next⟩
  | _, .calls library native rest, opened, runs, next =>
    match innermostOf runs library with
    | none => ⟨misuse, [], next⟩
    | some run =>
      let call := native.means lends ((library, run) :: opened) runs next
      let after := (rest (statuses.comesTo call.answer (call.left.lookup opened.length))).means
        lends opened runs call.next
      ⟨after.answer, call.left.filter (·.1 < opened.length) ++ after.left, after.next⟩
  | _, .scopes library inner rest, opened, runs, next =>
    match innermostOf runs library with
    | none => ⟨misuse, [], next⟩
    | some _ =>
      let inside := (inner next).means lends opened ((library, next) :: runs) (next + 1)
      let after := (rest inside.answer).means lends opened runs inside.next
      ⟨after.answer, inside.left ++ after.left, after.next⟩
  | _, .opens library inner rest, opened, runs, next =>
    match innermostOf runs library with
    | some _ => (rest none).means lends opened runs next
    | none =>
      let inside := (inner next).means lends opened ((library, next) :: runs) (next + 1)
      let after := (rest (some inside.answer)).means lends opened runs inside.next
      ⟨after.answer, inside.left ++ after.left, after.next⟩
  | _, .strays library body rest, opened, runs, next =>
    match lends opened runs library with
    | none => (rest statuses.hostException).means lends opened runs next
    | some (depth, run) =>
      let back := (body run).means lends opened runs next
      let after := (rest (statuses.told back.answer)).means lends opened runs back.next
      ⟨after.answer, back.left ++ back.answer.left depth ++ after.left, after.next⟩

def Code.Strays (meets : List (ℕ × ℕ) → List (ℕ × ℕ) → ℕ → Prop) :
    {side : Side} → Code side → List (ℕ × ℕ) → List (ℕ × ℕ) → ℕ → Prop
  | _, .answers _, _, _, _ => True
  | _, .callsBack body rest, opened, runs, next =>
    match opened with
    | [] => (rest statuses.hostException).Strays meets opened runs next
    | (_, run) :: _ =>
      let back := (body run).means statuses callInto opened runs next
      (body run).Strays meets opened runs next ∧
        (rest (statuses.told back.answer)).Strays meets opened runs back.next
  | _, .ends _, _, _, _ => True
  | _, .calls library native rest, opened, runs, next =>
    match innermostOf runs library with
    | none => True
    | some run =>
      let call := native.means statuses callInto ((library, run) :: opened) runs next
      native.Strays meets ((library, run) :: opened) runs next ∧
        (rest (statuses.comesTo call.answer (call.left.lookup opened.length))).Strays
          meets opened runs call.next
  | _, .scopes library inner rest, opened, runs, next =>
    match innermostOf runs library with
    | none => True
    | some _ =>
      let inside := (inner next).means statuses callInto opened ((library, next) :: runs) (next + 1)
      (inner next).Strays meets opened ((library, next) :: runs) (next + 1) ∧
        (rest inside.answer).Strays meets opened runs inside.next
  | _, .opens library inner rest, opened, runs, next =>
    match innermostOf runs library with
    | some _ => (rest none).Strays meets opened runs next
    | none =>
      let inside := (inner next).means statuses callInto opened ((library, next) :: runs) (next + 1)
      (inner next).Strays meets opened ((library, next) :: runs) (next + 1) ∧
        (rest (some inside.answer)).Strays meets opened runs inside.next
  | _, .strays library body rest, opened, runs, next =>
    meets opened runs library ∧
      match callInto opened runs library with
      | none => (rest statuses.hostException).Strays meets opened runs next
      | some (_, run) =>
        let back := (body run).means statuses callInto opened runs next
        (body run).Strays meets opened runs next ∧
          (rest (statuses.told back.answer)).Strays meets opened runs back.next

structure OpenCall where
  runtime : ℕ
  keeper : ℕ
  caught : Option Caught

/-- The libraries with a root run open on a thread, the runs in hand, and the calls open, each the
    innermost first. -/
structure Thread where
  opened : List ℕ
  runs : List (ℕ × ℕ)
  calls : List OpenCall
  next : ℕ

/-- What a call that answered `status` comes to, where a host implementation it called back left
    `caught`. -/
def Statuses.answeredWith (statuses : Statuses) (status : ℕ) (caught : Option Caught) : CallEnded :=
  match caught with
  | some (.panicked payload) => .panicked payload
  | some (.failed callback) =>
    match callback with
    | .host error => .failed (.host error)
    | .crossing failure => .failed failure
  | none =>
    if status = statuses.answered then .answered
    else if status = statuses.hostException then .failed .protocolViolation
    else if status = statuses.protocolViolation then .failed .protocolViolation
    else if status = statuses.unbound then .failed .unbound
    else .failed (.abort status (statuses.named status))

def Thread.keep (thread : Thread) (caught : Caught) : Thread :=
  match thread.calls with
  | call :: rest =>
    { thread with calls := { call with caught := call.caught.or (some caught) } :: rest }
  | [] => thread

def Thread.host (library : ℕ) (body : ℕ → Thread → Ended × Thread) (thread : Thread) :
    ℕ × Thread :=
  match thread.calls with
  | [] => (statuses.hostException, thread)
  | call :: _ =>
    if call.runtime = library then
      let (ended, thread) := body call.keeper thread
      match ended.caught with
      | none => (statuses.answered, thread)
      | some caught => (statuses.hostException, thread.keep caught)
    else (statuses.hostException, thread)

def Thread.close (thread : Thread) : Option Caught × Thread :=
  match thread.calls with
  | call :: rest => (call.caught, { thread with calls := rest })
  | [] => (none, thread)

def Thread.within (library : ℕ) (body : ℕ → Thread → Ended × Thread) (thread : Thread) :
    Ended × Thread :=
  let (ended, after) := body thread.next
    { thread with runs := (library, thread.next) :: thread.runs, next := thread.next + 1 }
  (ended, { after with runs := after.runs.tail })

def Code.stacked : {side : Side} → Code side → ℕ → Thread → Answer side × Thread
  | _, .answers status, _, thread => (status, thread)
  | _, .callsBack body rest, own, thread =>
    let (status, thread) := thread.host statuses own fun run thread =>
      (body run).stacked own thread
    (rest status).stacked own thread
  | _, .ends ended, _, thread => (ended, thread)
  | _, .calls library native rest, own, thread =>
    match innermostOf thread.runs library with
    | none => (misuse, thread)
    | some run =>
      let (status, thread) := native.stacked library
        { thread with calls := ⟨library, run, none⟩ :: thread.calls }
      let (caught, thread) := thread.close
      (rest (statuses.answeredWith status caught)).stacked own thread
  | _, .scopes library inner rest, own, thread =>
    match innermostOf thread.runs library with
    | none => (misuse, thread)
    | some _ =>
      let (ended, thread) := thread.within library fun run thread => (inner run).stacked own thread
      (rest ended).stacked own thread
  | _, .opens library inner rest, own, thread =>
    if library ∈ thread.opened then (rest none).stacked own thread
    else
      let (ended, thread) := { thread with opened := library :: thread.opened }.within library
        fun run thread => (inner run).stacked own thread
      (rest (some ended)).stacked own { thread with opened := thread.opened.erase library }
  | _, .strays library body rest, own, thread =>
    let (status, thread) := thread.host statuses library fun run thread =>
      (body run).stacked library thread
    (rest status).stacked own thread

/-- The runs open on a thread, the innermost first, the calls going on in each, the innermost last,
    with what a host implementation each called back left, and the libraries with a root run. -/
structure Goroutine where
  roots : List ℕ
  runs : List (ℕ × ℕ)
  frames : ℕ → List (Option Caught)
  next : ℕ

def CallbackFailure.crossed : CallbackFailure → Option Failure
  | .crossing failure => some failure
  | .host _ => none

/-- What a call that answered `status` comes to, where a callback left `caught`. -/
def Statuses.outcome (statuses : Statuses) (status : ℕ) (caught : Option Caught) : CallEnded :=
  match caught with
  | some (.panicked payload) => .panicked payload
  | some (.failed callback) =>
    match callback.crossed, callback with
    | some failure, _ => .failed failure
    | none, .host error => .failed (.host error)
    | none, .crossing failure => .failed failure
  | none =>
    if status = statuses.answered then .answered
    else if status = statuses.hostException ∨ status = statuses.protocolViolation then
      .failed .protocolViolation
    else if status = statuses.unbound then .failed .unbound
    else .failed (.abort status (statuses.named status))

def Goroutine.onRun (routine : Goroutine) (run : ℕ)
    (change : List (Option Caught) → List (Option Caught)) : Goroutine :=
  { routine with frames := Function.update routine.frames run (change (routine.frames run)) }

/-- A host implementation run in the innermost run of its library, and what it left kept in the
    frame that was innermost when it was called back. -/
def Goroutine.host (library : ℕ) (body : ℕ → Goroutine → Ended × Goroutine)
    (routine : Goroutine) : ℕ × Goroutine :=
  match innermostOf routine.runs library with
  | none => (statuses.hostException, routine)
  | some inner =>
    if routine.frames inner = [] then (statuses.hostException, routine)
    else
      let depth := (routine.frames inner).length - 1
      let (ended, routine) := body inner routine
      match ended.caught with
      | none => (statuses.answered, routine)
      | some caught => (statuses.hostException, routine.onRun inner fun frames =>
          frames.modify depth fun kept => kept.or (some caught))

def Goroutine.within (library : ℕ) (body : ℕ → Goroutine → Ended × Goroutine)
    (routine : Goroutine) : Ended × Goroutine :=
  let run := routine.next
  let (ended, after) := body run
    { routine with runs := (library, run) :: routine.runs, next := routine.next + 1 }
  (ended, { after with
    runs := after.runs.tail
    frames := Function.update after.frames run [] })

def Code.framed : {side : Side} → Code side → ℕ → Goroutine → Answer side × Goroutine
  | _, .answers status, _, routine => (status, routine)
  | _, .callsBack body rest, own, routine =>
    let (status, routine) := routine.host statuses own fun run routine =>
      (body run).framed own routine
    (rest status).framed own routine
  | _, .ends ended, _, routine => (ended, routine)
  | _, .calls library native rest, own, routine =>
    match innermostOf routine.runs library with
    | none => (misuse, routine)
    | some run =>
      let routine := routine.onRun run fun frames => frames ++ [none]
      let depth := (routine.frames run).length - 1
      let (status, routine) := native.framed library routine
      let kept := (routine.frames run)[depth]?.join
      let routine := routine.onRun run fun frames => frames.take depth
      (rest (statuses.outcome status kept)).framed own routine
  | _, .scopes library inner rest, own, routine =>
    match innermostOf routine.runs library with
    | none => (misuse, routine)
    | some _ =>
      let (ended, routine) := routine.within library fun run routine =>
        (inner run).framed own routine
      (rest ended).framed own routine
  | _, .opens library inner rest, own, routine =>
    if library ∈ routine.roots then (rest none).framed own routine
    else
      let (ended, routine) := { routine with roots := library :: routine.roots }.within library
        fun run routine => (inner run).framed own routine
      (rest (some ended)).framed own { routine with roots := routine.roots.erase library }
  | _, .strays library body rest, own, routine =>
    let (status, routine) := routine.host statuses library fun run routine =>
      (body run).framed library routine
    (rest status).framed own routine

end

lemma answeredWith_eq (statuses : Statuses) (status : ℕ) (caught : Option Caught) :
    statuses.answeredWith status caught = statuses.comesTo status caught := by
  rcases caught with _ | ⟨failure | error⟩ | payload
  · unfold Statuses.answeredWith Statuses.comesTo
    by_cases exception : status = statuses.hostException
    · simp [exception]
    · simp [exception]
  · rfl
  · rfl
  · rfl

lemma outcome_eq (statuses : Statuses) (status : ℕ) (caught : Option Caught) :
    statuses.outcome status caught = statuses.comesTo status caught := by
  rcases caught with _ | ⟨failure | error⟩ | payload
  · rfl
  · rfl
  · rfl
  · rfl

lemma Statuses.told_none (statuses : Statuses) {ended : Ended} (leaves : ended.caught = none) :
    statuses.told ended = statuses.answered := by
  unfold Statuses.told
  rw [leaves]

lemma Statuses.told_some (statuses : Statuses) {ended : Ended} {caught : Caught}
    (leaves : ended.caught = some caught) : statuses.told ended = statuses.hostException := by
  unfold Statuses.told
  rw [leaves]

def RootsOpen (roots : List ℕ) (runs : List (ℕ × ℕ)) : Prop :=
  ∀ library, library ∈ roots ↔ innermostOf runs library ≠ none

lemma innermostOf_cons (library run : ℕ) (runs : List (ℕ × ℕ)) (other : ℕ) :
    innermostOf ((library, run) :: runs) other =
      if library = other then some run else innermostOf runs other := by
  unfold innermostOf
  by_cases same : library = other
  · simp [same]
  · simp [same]

lemma RootsOpen.scope {roots : List ℕ} {runs : List (ℕ × ℕ)} (rootsOpen : RootsOpen roots runs)
    {library run inside : ℕ} (there : innermostOf runs library = some run) :
    RootsOpen roots ((library, inside) :: runs) := by
  intro other
  rw [innermostOf_cons, rootsOpen other]
  by_cases same : library = other
  · subst same
    simp [there]
  · simp [same]

lemma RootsOpen.root {roots : List ℕ} {runs : List (ℕ × ℕ)} (rootsOpen : RootsOpen roots runs)
    (library inside : ℕ) : RootsOpen (library :: roots) ((library, inside) :: runs) := by
  intro other
  rw [innermostOf_cons, List.mem_cons, rootsOpen other]
  by_cases same : library = other
  · simp [same]
  · simp [same, Ne.symm same]

lemma RootsOpen.none_of_notMem {roots : List ℕ} {runs : List (ℕ × ℕ)}
    (rootsOpen : RootsOpen roots runs) {library : ℕ} (closed : library ∉ roots) :
    innermostOf runs library = none := by
  by_contra some
  exact closed ((rootsOpen library).mpr some)

lemma mem_of_innermostOf {runs : List (ℕ × ℕ)} {library run : ℕ}
    (inside : innermostOf runs library = some run) : (library, run) ∈ runs := by
  obtain ⟨⟨found, id⟩, there, same⟩ := Option.map_eq_some_iff.mp inside
  have which := List.find?_some there
  have member := List.mem_of_find?_eq_some there
  simp only [decide_eq_true_eq] at which
  cases same
  subst which
  exact member

/-- No run is of two libraries, the next one is of none, and a call is made in a run of its own
    library. -/
structure Numbered (opened runs : List (ℕ × ℕ)) (next : ℕ) : Prop where
  before : ∀ run ∈ opened ++ runs, run.2 < next
  once : ∀ run ∈ opened ++ runs, ∀ other ∈ opened ++ runs, run.2 = other.2 → run.1 = other.1

lemma Numbered.later {opened runs : List (ℕ × ℕ)} {next later : ℕ}
    (numbered : Numbered opened runs next) (le : next ≤ later) : Numbered opened runs later where
  before run member := lt_of_lt_of_le (numbered.before run member) le
  once := numbered.once

lemma Numbered.call {opened runs : List (ℕ × ℕ)} {next library run : ℕ}
    (numbered : Numbered opened runs next) (through : innermostOf runs library = some run) :
    Numbered ((library, run) :: opened) runs next := by
  have known : ∀ other ∈ (library, run) :: opened ++ runs, other ∈ opened ++ runs := by
    intro other member
    rcases List.mem_cons.mp member with rfl | old
    · exact List.mem_append_right _ (mem_of_innermostOf through)
    · exact old
  exact ⟨fun other member => numbered.before other (known other member),
    fun one member other member' =>
      numbered.once one (known one member) other (known other member')⟩

lemma Numbered.opening {opened runs : List (ℕ × ℕ)} {next : ℕ}
    (numbered : Numbered opened runs next) (library : ℕ) :
    Numbered opened ((library, next) :: runs) (next + 1) := by
  have known : ∀ other ∈ opened ++ (library, next) :: runs,
      other = (library, next) ∨ other ∈ opened ++ runs := by
    intro other member
    rcases List.mem_append.mp member with old | new
    · exact Or.inr (List.mem_append_left _ old)
    · rcases List.mem_cons.mp new with same | old
      · exact Or.inl same
      · exact Or.inr (List.mem_append_right _ old)
  constructor
  · intro run member
    rcases known run member with rfl | old
    · exact Nat.lt_succ_self _
    · exact Nat.lt_succ_of_lt (numbered.before run old)
  · intro run member other member' same
    rcases known run member with rfl | old
    · rcases known other member' with rfl | old'
      · rfl
      · exact absurd same (numbered.before other old').ne'
    · rcases known other member' with rfl | old'
      · exact absurd same (numbered.before run old).ne
      · exact numbered.once run old other old' same

lemma means_later (statuses : Statuses) (lends : Lending) {side : Side} (code : Code side) :
    ∀ opened runs next, next ≤ (code.means statuses lends opened runs next).next := by
  induction code with
  | answers status => exact fun _ _ _ => le_rfl
  | ends ended => exact fun _ _ _ => le_rfl
  | callsBack body rest ihBody ihRest =>
    intro opened runs next
    cases opened with
    | nil => exact ihRest _ [] runs next
    | cons call outer => exact (ihBody call.2 _ runs next).trans (ihRest _ _ runs _)
  | calls library native rest ihNative ihRest =>
    intro opened runs next
    unfold Code.means
    cases innermostOf runs library with
    | none => exact le_rfl
    | some run => exact (ihNative _ runs next).trans (ihRest _ opened runs _)
  | scopes library inner rest ihInner ihRest =>
    intro opened runs next
    unfold Code.means
    cases innermostOf runs library with
    | none => exact le_rfl
    | some run =>
      exact (Nat.le_succ next).trans ((ihInner next opened _ (next + 1)).trans (ihRest _ _ runs _))
  | opens library inner rest ihInner ihRest =>
    intro opened runs next
    unfold Code.means
    cases innermostOf runs library with
    | none =>
      exact (Nat.le_succ next).trans ((ihInner next opened _ (next + 1)).trans (ihRest _ _ runs _))
    | some run => exact ihRest _ opened runs next
  | strays library body rest ihBody ihRest =>
    intro opened runs next
    unfold Code.means
    cases lends opened runs library with
    | none => exact ihRest _ opened runs next
    | some call => exact (ihBody call.2 opened runs next).trans (ihRest _ opened runs _)

/-- Code means the same where each stray implementation it reaches is lent the run it would be. -/
lemma means_of_strays (statuses : Statuses) {lends : Lending}
    {meets : List (ℕ × ℕ) → List (ℕ × ℕ) → ℕ → Prop}
    (agree : ∀ {opened runs next library}, Numbered opened runs next → meets opened runs library →
      lends opened runs library = callInto opened runs library) {side : Side} (code : Code side) :
    ∀ opened runs next, Numbered opened runs next → code.Strays statuses meets opened runs next →
      code.means statuses lends opened runs next =
        code.means statuses callInto opened runs next := by
  induction code with
  | answers status => exact fun _ _ _ _ _ => rfl
  | ends ended => exact fun _ _ _ _ _ => rfl
  | callsBack body rest ihBody ihRest =>
    intro opened runs next numbered strays
    cases opened with
    | nil => exact ihRest _ [] runs next numbered strays
    | cons call outer =>
      have back := ihBody call.2 _ runs next numbered strays.1
      have after := ihRest _ _ runs _
        (numbered.later (means_later statuses callInto (body call.2) _ runs next)) strays.2
      simp only [Code.means, back, after]
  | calls library native rest ihNative ihRest =>
    intro opened runs next numbered strays
    unfold Code.Strays at strays
    unfold Code.means
    cases through : innermostOf runs library with
    | none => rfl
    | some run =>
      rw [through] at strays
      have call := ihNative _ runs next (numbered.call through) strays.1
      have after := ihRest _ opened runs _
        (numbered.later (means_later statuses callInto native _ runs next)) strays.2
      simp only [call, after]
  | scopes library inner rest ihInner ihRest =>
    intro opened runs next numbered strays
    unfold Code.Strays at strays
    unfold Code.means
    cases through : innermostOf runs library with
    | none => rfl
    | some run =>
      rw [through] at strays
      have inside := ihInner next opened _ (next + 1) (numbered.opening library) strays.1
      have after := ihRest _ opened runs _ (numbered.later ((Nat.le_succ next).trans
        (means_later statuses callInto (inner next) _ _ (next + 1)))) strays.2
      simp only [inside, after]
  | opens library inner rest ihInner ihRest =>
    intro opened runs next numbered strays
    unfold Code.Strays at strays
    unfold Code.means
    cases through : innermostOf runs library with
    | some run =>
      rw [through] at strays
      exact ihRest _ opened runs next numbered strays
    | none =>
      rw [through] at strays
      have inside := ihInner next opened _ (next + 1) (numbered.opening library) strays.1
      have after := ihRest _ opened runs _ (numbered.later ((Nat.le_succ next).trans
        (means_later statuses callInto (inner next) _ _ (next + 1)))) strays.2
      simp only [inside, after]
  | strays library body rest ihBody ihRest =>
    intro opened runs next numbered strays
    unfold Code.Strays at strays
    unfold Code.means
    rw [agree numbered strays.1]
    cases lent : callInto opened runs library with
    | none =>
      rw [lent] at strays
      exact ihRest _ opened runs next numbered strays.2
    | some call =>
      rw [lent] at strays
      have back := ihBody call.2 opened runs next numbered strays.2.1
      have after := ihRest _ opened runs _
        (numbered.later (means_later statuses callInto (body call.2) _ runs next)) strays.2.2
      simp only [back, after]

def leave : List OpenCall → List (ℕ × Caught) → List OpenCall
  | [], _ => []
  | call :: outer, left =>
    { call with caught := call.caught.or (left.lookup outer.length) } :: leave outer left

def openedOf (calls : List OpenCall) : List (ℕ × ℕ) :=
  calls.map fun call => (call.runtime, call.keeper)

@[simp] lemma openedOf_cons (call : OpenCall) (outer : List OpenCall) :
    openedOf (call :: outer) = (call.runtime, call.keeper) :: openedOf outer :=
  rfl

@[simp] lemma leave_nil (calls : List OpenCall) : leave calls [] = calls := by
  induction calls with
  | nil => rfl
  | cons call outer ih => simp [leave, ih]

@[simp] lemma leave_leave (calls : List OpenCall) (left later : List (ℕ × Caught)) :
    leave (leave calls left) later = leave calls (left ++ later) := by
  induction calls with
  | nil => rfl
  | cons call outer ih =>
    have length : (leave outer left).length = outer.length := by
      clear ih
      induction outer with
      | nil => rfl
      | cons call outer ih => simp [leave, ih]
    simp only [leave, ih, length, Option.or_assoc, List.lookup_append]

@[simp] lemma openedOf_leave (calls : List OpenCall) (left : List (ℕ × Caught)) :
    openedOf (leave calls left) = openedOf calls := by
  induction calls with
  | nil => rfl
  | cons call outer ih =>
    have rest : openedOf (leave outer left) = openedOf outer := ih
    simpa [openedOf, leave] using rest

@[simp] lemma length_openedOf (calls : List OpenCall) :
    (openedOf calls).length = calls.length := by
  simp [openedOf]

@[simp] lemma length_leave (calls : List OpenCall) (left : List (ℕ × Caught)) :
    (leave calls left).length = calls.length := by
  rw [← length_openedOf, openedOf_leave, length_openedOf]

lemma lookup_filter (left : List (ℕ × Caught)) {depth bound : ℕ} (below : depth < bound) :
    (left.filter (·.1 < bound)).lookup depth = left.lookup depth := by
  induction left with
  | nil => rfl
  | cons entry left ih =>
    obtain ⟨call, caught⟩ := entry
    by_cases kept : call < bound
    · rw [List.filter_cons_of_pos (by simpa using kept), List.lookup_cons, List.lookup_cons, ih]
    · have other : (depth == call) = false := by
        rw [beq_eq_false_iff_ne]
        omega
      rw [List.filter_cons_of_neg (by simpa using kept), ih, List.lookup_cons, other]

lemma leave_filter (calls : List OpenCall) (left : List (ℕ × Caught)) {bound : ℕ}
    (within : calls.length ≤ bound) : leave calls (left.filter (·.1 < bound)) = leave calls left := by
  induction calls with
  | nil => rfl
  | cons call outer ih =>
    rw [List.length_cons] at within
    rw [leave, leave, lookup_filter left (by omega), ih (by omega)]

lemma leave_beyond (calls : List OpenCall) {depth : ℕ} (caught : Caught)
    (beyond : calls.length ≤ depth) : leave calls [(depth, caught)] = calls := by
  induction calls with
  | nil => rfl
  | cons call outer ih =>
    rw [List.length_cons] at beyond
    have other : (outer.length == depth) = false := by
      rw [beq_eq_false_iff_ne]
      omega
    rw [leave, ih (by omega), List.lookup_cons, other]
    exact congrArg (fun caught => { call with caught := caught } :: outer) (Option.or_none ..)

def Thread.leaving (thread : Thread) (left : List (ℕ × Caught)) (next : ℕ) : Thread :=
  { thread with calls := leave thread.calls left, next := next }

@[simp] lemma Thread.leaving_leaving (thread : Thread) (left later : List (ℕ × Caught))
    (next after : ℕ) : (thread.leaving left next).leaving later after =
      thread.leaving (left ++ later) after := by
  simp [Thread.leaving]

lemma stack_host (statuses : Statuses) {thread : Thread} {call : OpenCall} {outer : List OpenCall}
    (top : thread.calls = call :: outer) (body : ℕ → Thread → Ended × Thread) {ended : Ended}
    {left : List (ℕ × Caught)} {next : ℕ}
    (ran : body call.keeper thread = (ended, thread.leaving left next)) :
    thread.host statuses call.runtime body =
      (statuses.told ended, thread.leaving (left ++ ended.left outer.length) next) := by
  unfold Thread.host
  rw [top]
  dsimp only
  rw [if_pos rfl, ran]
  unfold Ended.left
  dsimp only
  cases leaves : ended.caught with
  | none =>
    rw [statuses.told_none leaves]
    simp
  | some caught =>
    have kept : (thread.leaving left next).keep caught =
        (thread.leaving left next).leaving [(outer.length, caught)] next := by
      unfold Thread.keep Thread.leaving
      rw [top]
      simp only [leave, length_leave]
      rw [leave_beyond _ caught (by simp)]
      simp
    rw [statuses.told_some leaves]
    dsimp only [Option.toList, List.map]
    rw [kept, Thread.leaving_leaving]

def OnStack (side : Side) (own : ℕ) (calls : List (ℕ × ℕ)) : Prop :=
  side = .native → ∃ run outer, calls = (own, run) :: outer

lemma exists_of_openedOf {calls : List OpenCall} {own run : ℕ} {outer : List (ℕ × ℕ)}
    (top : openedOf calls = (own, run) :: outer) : ∃ call inside, calls = call :: inside ∧
      call.runtime = own ∧ call.keeper = run ∧ inside.length = outer.length := by
  cases calls with
  | nil => cases top
  | cons call inside =>
    cases top
    exact ⟨call, inside, rfl, rfl, rfl, by simp⟩

/-- A stack of the calls open comes to what code means where the call on top is the one that lends
    its run. -/
lemma stack_means (statuses : Statuses) {side : Side} (code : Code side) :
    ∀ own thread, RootsOpen thread.opened thread.runs → OnStack side own (openedOf thread.calls) →
      code.stacked statuses own thread =
        let meant := code.means statuses topCall (openedOf thread.calls) thread.runs thread.next
        (meant.answer, thread.leaving meant.left meant.next) := by
  induction code with
  | answers status =>
    intro own thread roots onStack
    simp [Code.stacked, Code.means, Thread.leaving]
  | ends ended =>
    intro own thread roots onStack
    simp [Code.stacked, Code.means, Thread.leaving]
  | callsBack body rest ihBody ihRest =>
    intro own thread roots onStack
    obtain ⟨run, outer, top⟩ := onStack rfl
    obtain ⟨call, inside, calls, rfl, rfl, length⟩ := exists_of_openedOf top
    have back := stack_host statuses calls (fun run thread =>
      (body run).stacked statuses call.runtime thread)
      (ihBody call.keeper call.runtime thread roots (by intro native; cases native))
    have after := fun status left next => ihRest status call.runtime (thread.leaving left next) roots
      (fun _ => ⟨_, _, (openedOf_leave ..).trans top⟩)
    unfold Code.stacked
    rw [back]
    dsimp only
    rw [after]
    simp [Code.means, Thread.leaving, top, length]
  | calls library native rest ihNative ihRest =>
    intro own thread roots onStack
    unfold Code.stacked Code.means
    cases through : innermostOf thread.runs library with
    | none => simp [Thread.leaving]
    | some run =>
      have call := ihNative library
        { thread with calls := ⟨library, run, none⟩ :: thread.calls } roots
        (fun _ => ⟨_, _, rfl⟩)
      have after := fun status left next => ihRest status own (thread.leaving left next) roots
        (by intro native; cases native)
      dsimp only
      rw [call]
      dsimp only [Thread.close, Thread.leaving, leave]
      rw [answeredWith_eq, Option.none_or]
      exact (after _ _ _).trans (by
        simp [Thread.leaving, leave_filter thread.calls _ le_rfl, ← leave_leave])
  | scopes library inner rest ihInner ihRest =>
    intro own thread roots onStack
    unfold Code.stacked Code.means
    cases through : innermostOf thread.runs library with
    | none => simp [Thread.leaving]
    | some run =>
      have inside := ihInner thread.next own { thread with
        runs := (library, thread.next) :: thread.runs, next := thread.next + 1 }
        (roots.scope through) (by intro native; cases native)
      have after := fun status left next => ihRest status own (thread.leaving left next) roots
        (by intro native; cases native)
      dsimp only [Thread.within]
      rw [inside]
      exact (after _ _ _).trans (by simp [Thread.leaving])
  | opens library inner rest ihInner ihRest =>
    intro own thread roots onStack
    unfold Code.stacked Code.means
    by_cases already : library ∈ thread.opened
    · obtain ⟨run, through⟩ := Option.ne_none_iff_exists'.mp ((roots library).mp already)
      rw [through, if_pos already]
      exact ihRest none own thread roots (by intro native; cases native)
    · have inside := ihInner thread.next own { thread with
        opened := library :: thread.opened
        runs := (library, thread.next) :: thread.runs
        next := thread.next + 1 } (roots.root library _) (by intro native; cases native)
      have after := fun status left next => ihRest status own (thread.leaving left next) roots
        (by intro native; cases native)
      rw [roots.none_of_notMem already, if_neg already]
      dsimp only [Thread.within]
      rw [inside]
      dsimp only [Thread.leaving]
      rw [List.erase_cons_head]
      exact (after _ _ _).trans (by simp [Thread.leaving])
  | strays library body rest ihBody ihRest =>
    intro own thread roots onStack
    have after := fun status left next => ihRest status own (thread.leaving left next) roots
      (by intro native; cases native)
    unfold Code.stacked Code.means
    cases calls : thread.calls with
    | nil =>
      have none : thread.host statuses library (fun run thread =>
          (body run).stacked statuses library thread) = (statuses.hostException, thread) := by
        unfold Thread.host
        rw [calls]
      rw [none]
      exact (ihRest _ own thread roots (by intro native; cases native)).trans (by rw [calls]; rfl)
    | cons call outer =>
      by_cases same : call.runtime = library
      · subst same
        have back := stack_host statuses calls (fun run thread =>
          (body run).stacked statuses call.runtime thread)
          (ihBody call.keeper call.runtime thread roots (by intro native; cases native))
        have lent : topCall (openedOf thread.calls) thread.runs call.runtime =
            some (outer.length, call.keeper) := by simp [topCall, calls]
        rw [back, ← calls, lent]
        exact (after _ _ _).trans (by simp [Thread.leaving])
      · have none : thread.host statuses library (fun run thread =>
            (body run).stacked statuses library thread) = (statuses.hostException, thread) := by
          unfold Thread.host
          rw [calls]
          exact if_neg same
        rw [none]
        exact (ihRest _ own thread roots (by intro native; cases native)).trans
          (by simp [topCall, calls, same])

def framesOf (calls : List OpenCall) (run : ℕ) : List (Option Caught) :=
  ((calls.filter fun call => call.keeper = run).map OpenCall.caught).reverse

lemma framesOf_cons_self (call : OpenCall) (outer : List OpenCall) :
    framesOf (call :: outer) call.keeper = framesOf outer call.keeper ++ [call.caught] := by
  simp [framesOf]

lemma framesOf_cons_of_ne {call : OpenCall} {run : ℕ} (other : call.keeper ≠ run)
    (outer : List OpenCall) : framesOf (call :: outer) run = framesOf outer run := by
  simp [framesOf, other]

lemma framesOf_cons (call : OpenCall) (outer : List OpenCall) : framesOf (call :: outer) =
    Function.update (framesOf outer) call.keeper (framesOf outer call.keeper ++ [call.caught]) := by
  funext run
  by_cases same : call.keeper = run
  · subst same
    rw [framesOf_cons_self, Function.update_self]
  · rw [framesOf_cons_of_ne same, Function.update_of_ne (Ne.symm same)]

lemma length_framesOf (calls : List OpenCall) (run : ℕ) :
    (framesOf calls run).length = ((openedOf calls).filter fun call => call.2 = run).length := by
  simp only [framesOf, openedOf, List.length_reverse, List.length_map, List.filter_map]
  rfl

lemma framesOf_eq_nil {calls : List OpenCall} {run : ℕ}
    (none : callIn (openedOf calls) run = none) : framesOf calls run = [] := by
  induction calls with
  | nil => rfl
  | cons call outer ih =>
    by_cases same : call.keeper = run
    · simp [callIn, same] at none
    · rw [framesOf_cons_of_ne same]
      exact ih (by simpa [callIn, same] using none)

lemma modify_last (outer : List (Option Caught)) (caught : Option Caught)
    (change : Option Caught → Option Caught) :
    (outer ++ [caught]).modify outer.length change = outer ++ [change caught] := by
  induction outer with
  | nil => rfl
  | cons frame outer ih => exact congrArg (frame :: ·) ih

lemma callIn_lt {opened : List (ℕ × ℕ)} {run depth : ℕ} (made : callIn opened run = some depth) :
    depth < opened.length := by
  induction opened with
  | nil => cases made
  | cons call outer ih =>
    unfold callIn at made
    split at made
    · cases made
      exact Nat.lt_succ_self _
    · exact Nat.lt_succ_of_lt (ih made)

lemma callIn_eq_none {opened : List (ℕ × ℕ)} {run : ℕ} (other : ∀ call ∈ opened, call.2 ≠ run) :
    callIn opened run = none := by
  induction opened with
  | nil => rfl
  | cons call outer ih =>
    unfold callIn
    rw [if_neg (other call (by simp))]
    exact ih fun call member => other call (List.mem_cons_of_mem _ member)

/-- What is left in the innermost frame of a run is left for the innermost call made in it. -/
lemma framesOf_leave {calls : List OpenCall} {run depth : ℕ}
    (made : callIn (openedOf calls) run = some depth) (caught : Caught) :
    framesOf calls run ≠ [] ∧ framesOf (leave calls [(depth, caught)]) =
      Function.update (framesOf calls) run ((framesOf calls run).modify
        ((framesOf calls run).length - 1) fun kept => kept.or (some caught)) := by
  induction calls with
  | nil => cases made
  | cons call outer ih =>
    rw [openedOf_cons, callIn] at made
    by_cases same : call.keeper = run
    · subst same
      rw [if_pos rfl, length_openedOf] at made
      cases made
      have first : List.lookup outer.length [(outer.length, caught)] = some caught := by simp
      refine ⟨by simp [framesOf_cons_self], ?_⟩
      rw [leave, leave_beyond outer caught le_rfl, first, framesOf_cons, framesOf_cons_self,
        List.length_append, List.length_singleton, Nat.add_sub_cancel, modify_last, framesOf_cons,
        Function.update_idem]
    · rw [if_neg same] at made
      obtain ⟨some, rest⟩ := ih made
      have below := callIn_lt made
      rw [length_openedOf] at below
      have other : (outer.length == depth) = false := by
        rw [beq_eq_false_iff_ne]
        omega
      refine ⟨by rwa [framesOf_cons_of_ne same], ?_⟩
      rw [leave, List.lookup_cons, other, framesOf_cons_of_ne same, framesOf_cons, framesOf_cons,
        rest, Function.update_of_ne same, Function.update_comm same]
      simp

/-- A goroutine once code has run in it, with `calls` open. -/
def Goroutine.leaving (routine : Goroutine) (calls : List OpenCall) (left : List (ℕ × Caught))
    (next : ℕ) : Goroutine :=
  { routine with frames := framesOf (leave calls left), next := next }

@[simp] lemma Goroutine.leaving_leaving (routine : Goroutine) (calls : List OpenCall)
    (left later : List (ℕ × Caught)) (next after : ℕ) :
    (routine.leaving calls left next).leaving (leave calls left) later after =
      routine.leaving calls (left ++ later) after := by
  simp [Goroutine.leaving]

lemma frames_host (statuses : Statuses) {routine : Goroutine} {calls : List OpenCall}
    (frames : routine.frames = framesOf calls) {library run depth : ℕ}
    (inside : innermostOf routine.runs library = some run)
    (made : callIn (openedOf calls) run = some depth) (body : ℕ → Goroutine → Ended × Goroutine)
    {ended : Ended} {left : List (ℕ × Caught)} {next : ℕ}
    (ran : body run routine = (ended, routine.leaving calls left next)) :
    routine.host statuses library body =
      (statuses.told ended, routine.leaving calls (left ++ ended.left depth) next) := by
  unfold Goroutine.host
  rw [inside]
  dsimp only
  rw [frames, if_neg (framesOf_leave made (.panicked 0)).1, ran]
  unfold Ended.left
  dsimp only
  cases leaves : ended.caught with
  | none =>
    rw [statuses.told_none leaves]
    simp
  | some caught =>
    have again : callIn (openedOf (leave calls left)) run = some depth := by
      rwa [openedOf_leave]
    rw [statuses.told_some leaves]
    dsimp only [Goroutine.onRun, Goroutine.leaving, Option.toList, List.map]
    rw [← leave_leave, (framesOf_leave again caught).2, length_framesOf, length_framesOf, openedOf_leave]

/-- A call's own frame is read and taken off again, and the others are as they were left. -/
lemma framesOf_call (calls : List OpenCall) (left : List (ℕ × Caught)) (run : ℕ)
    {library : ℕ} {caught : Option Caught} :
    (framesOf (leave (⟨library, run, caught⟩ :: calls) left) run)[
        (framesOf calls run).length]?.join = caught.or (left.lookup calls.length) ∧
      Function.update (framesOf (leave (⟨library, run, caught⟩ :: calls) left)) run
        ((framesOf (leave (⟨library, run, caught⟩ :: calls) left) run).take
          (framesOf calls run).length) = framesOf (leave calls left) := by
  have length : (framesOf calls run).length = (framesOf (leave calls left) run).length := by
    rw [length_framesOf, length_framesOf, openedOf_leave]
  have top := framesOf_cons_self ⟨library, run, caught.or (left.lookup calls.length)⟩
    (leave calls left)
  dsimp only at top
  rw [leave, top, length]
  constructor
  · simp
  · rw [List.take_left, framesOf_cons, Function.update_idem, Function.update_eq_self]

def InOwn (side : Side) (own : ℕ) (opened runs : List (ℕ × ℕ)) : Prop :=
  side = .native → ∃ run outer, opened = (own, run) :: outer ∧ innermostOf runs own = some run

lemma framesOf_fresh {calls : List OpenCall} {runs : List (ℕ × ℕ)} {next : ℕ}
    (numbered : Numbered (openedOf calls) runs next) (left : List (ℕ × Caught)) :
    Function.update (framesOf (leave calls left)) next [] = framesOf (leave calls left) := by
  have none : callIn (openedOf (leave calls left)) next = none := by
    rw [openedOf_leave]
    exact callIn_eq_none fun call member =>
      (numbered.before call (List.mem_append_left _ member)).ne
  rw [← framesOf_eq_nil none, Function.update_eq_self]

/-- Frames of the runs come to what code means where the innermost call of the innermost run of its
    library is the one that lends its run. -/
lemma frames_mean (statuses : Statuses) {side : Side} (code : Code side) :
    ∀ own calls routine, RootsOpen routine.roots routine.runs →
      Numbered (openedOf calls) routine.runs routine.next → routine.frames = framesOf calls →
      InOwn side own (openedOf calls) routine.runs →
      code.framed statuses own routine =
        let meant := code.means statuses runCall (openedOf calls) routine.runs routine.next
        (meant.answer, routine.leaving calls meant.left meant.next) := by
  induction code with
  | answers status =>
    intro own calls routine roots numbered frames inOwn
    simp [Code.framed, Code.means, Goroutine.leaving, ← frames]
  | ends ended =>
    intro own calls routine roots numbered frames inOwn
    simp [Code.framed, Code.means, Goroutine.leaving, ← frames]
  | callsBack body rest ihBody ihRest =>
    intro own calls routine roots numbered frames inOwn
    obtain ⟨run, outer, top, inside⟩ := inOwn rfl
    have made : callIn (openedOf calls) run = some outer.length := by simp [callIn, top]
    have later := means_later statuses runCall (body run) (openedOf calls) routine.runs routine.next
    have back := frames_host statuses frames inside made (fun run routine =>
      (body run).framed statuses own routine)
      (ihBody run own calls routine roots numbered frames (by intro native; cases native))
    have after := fun status left => ihRest status own (leave calls left)
      (routine.leaving calls left _) roots (by rw [openedOf_leave]; exact numbered.later later) rfl
      (fun _ => ⟨run, outer, (openedOf_leave ..).trans top, inside⟩)
    unfold Code.framed
    rw [back]
    dsimp only
    rw [after]
    simp [Code.means, Goroutine.leaving, top]
  | calls library native rest ihNative ihRest =>
    intro own calls routine roots numbered frames inOwn
    unfold Code.framed Code.means
    cases through : innermostOf routine.runs library with
    | none => simp [Goroutine.leaving, ← frames]
    | some run =>
      have later := means_later statuses runCall native ((library, run) :: openedOf calls)
        routine.runs routine.next
      have call := ihNative library (⟨library, run, none⟩ :: calls)
        (routine.onRun run fun frames => frames ++ [none]) roots (numbered.call through)
        (by rw [framesOf_cons, ← frames]; rfl) (fun _ => ⟨run, _, rfl, through⟩)
      have after := fun status left => ihRest status own (leave calls left)
        (routine.leaving calls left _) roots (by rw [openedOf_leave]; exact numbered.later later) rfl
        (by intro native; cases native)
      have depth : ((routine.onRun run fun frames => frames ++ [none]).frames run).length - 1 =
          (framesOf calls run).length := by simp [Goroutine.onRun, frames]
      dsimp only
      rw [depth, call]
      dsimp only [Goroutine.leaving, Goroutine.onRun]
      rw [(framesOf_call calls _ run).1, (framesOf_call calls _ run).2, outcome_eq, Option.none_or]
      exact (after _ _).trans (by
        simp [Goroutine.leaving, leave_filter calls _ le_rfl, ← leave_leave])
  | scopes library inner rest ihInner ihRest =>
    intro own calls routine roots numbered frames inOwn
    unfold Code.framed Code.means
    cases through : innermostOf routine.runs library with
    | none => simp [Goroutine.leaving, ← frames]
    | some run =>
      have later := (Nat.le_succ _).trans (means_later statuses runCall (inner routine.next)
        (openedOf calls) ((library, routine.next) :: routine.runs) (routine.next + 1))
      have inside := ihInner routine.next own calls { routine with
        runs := (library, routine.next) :: routine.runs, next := routine.next + 1 }
        (roots.scope through) (numbered.opening library) frames (by intro native; cases native)
      have after := fun status left => ihRest status own (leave calls left)
        (routine.leaving calls left _) roots (by rw [openedOf_leave]; exact numbered.later later) rfl
        (by intro native; cases native)
      dsimp only [Goroutine.within]
      rw [inside]
      dsimp only [Goroutine.leaving]
      rw [framesOf_fresh numbered]
      exact (after _ _).trans (by simp [Goroutine.leaving])
  | opens library inner rest ihInner ihRest =>
    intro own calls routine roots numbered frames inOwn
    unfold Code.framed Code.means
    by_cases already : library ∈ routine.roots
    · obtain ⟨run, through⟩ := Option.ne_none_iff_exists'.mp ((roots library).mp already)
      rw [through, if_pos already]
      exact ihRest none own calls routine roots numbered frames (by intro native; cases native)
    · have later := (Nat.le_succ _).trans (means_later statuses runCall (inner routine.next)
        (openedOf calls) ((library, routine.next) :: routine.runs) (routine.next + 1))
      have inside := ihInner routine.next own calls { routine with
        roots := library :: routine.roots
        runs := (library, routine.next) :: routine.runs
        next := routine.next + 1 } (roots.root library _) (numbered.opening library) frames
        (by intro native; cases native)
      have after := fun status left => ihRest status own (leave calls left)
        (routine.leaving calls left _) roots (by rw [openedOf_leave]; exact numbered.later later) rfl
        (by intro native; cases native)
      rw [roots.none_of_notMem already, if_neg already]
      dsimp only [Goroutine.within]
      rw [inside]
      dsimp only [Goroutine.leaving]
      rw [framesOf_fresh numbered, List.erase_cons_head]
      exact (after _ _).trans (by simp [Goroutine.leaving])
  | strays library body rest ihBody ihRest =>
    intro own calls routine roots numbered frames inOwn
    unfold Code.framed Code.means
    cases lent : runCall (openedOf calls) routine.runs library with
    | some call =>
      obtain ⟨depth, run⟩ := call
      obtain ⟨run, inside, picked⟩ := Option.bind_eq_some_iff.mp lent
      obtain ⟨depth, made, same⟩ := Option.map_eq_some_iff.mp picked
      cases same
      have later := means_later statuses runCall (body run) (openedOf calls) routine.runs
        routine.next
      have back := frames_host statuses frames inside made (fun run routine =>
        (body run).framed statuses library routine)
        (ihBody run library calls routine roots numbered frames (by intro native; cases native))
      have after := fun status left => ihRest status own (leave calls left)
        (routine.leaving calls left _) roots (by rw [openedOf_leave]; exact numbered.later later) rfl
        (by intro native; cases native)
      rw [back]
      exact (after _ _).trans (by simp [Goroutine.leaving])
    | none =>
      have none : routine.host statuses library (fun run routine =>
          (body run).framed statuses library routine) = (statuses.hostException, routine) := by
        unfold Goroutine.host
        cases inside : innermostOf routine.runs library with
        | none => rfl
        | some run =>
          have none : callIn (openedOf calls) run = none := by
            simpa [runCall, inside] using lent
          exact if_pos (by rw [frames, framesOf_eq_nil none])
      rw [none]
      exact ihRest _ own calls routine roots numbered frames (by intro native; cases native)

def OnTop (opened _runs : List (ℕ × ℕ)) (library : ℕ) : Prop :=
  (∀ call ∈ opened, call.1 ≠ library) ∨ ∃ run outer, opened = (library, run) :: outer

def InRun (opened runs : List (ℕ × ℕ)) (library : ℕ) : Prop :=
  ∀ depth run, callInto opened runs library = some (depth, run) →
    innermostOf runs library = some run

lemma callInto_eq_none {opened runs : List (ℕ × ℕ)} {library : ℕ} :
    callInto opened runs library = none ↔ ∀ call ∈ opened, call.1 ≠ library := by
  induction opened with
  | nil => simp [callInto]
  | cons call outer ih =>
    unfold callInto
    by_cases same : call.1 = library
    · simp [same]
    · simp [same, ih]

lemma callInto_mem {opened runs : List (ℕ × ℕ)} {library depth run : ℕ}
    (into : callInto opened runs library = some (depth, run)) : (library, run) ∈ opened := by
  induction opened with
  | nil => cases into
  | cons call outer ih =>
    unfold callInto at into
    by_cases same : call.1 = library
    · rw [if_pos same] at into
      cases into
      subst same
      simp
    · rw [if_neg same] at into
      exact List.mem_cons_of_mem _ (ih into)

lemma topCall_of_onTop {opened runs : List (ℕ × ℕ)} {library : ℕ}
    (onTop : OnTop opened runs library) :
    topCall opened runs library = callInto opened runs library := by
  rcases onTop with none | ⟨run, outer, rfl⟩
  · rw [callInto_eq_none.mpr none]
    cases opened with
    | nil => rfl
    | cons call outer => exact if_neg (none call (by simp))
  · simp [topCall, callInto]

lemma topCall_of_not_onTop {opened runs : List (ℕ × ℕ)} {library : ℕ}
    (under : ¬OnTop opened runs library) : topCall opened runs library = none := by
  cases opened with
  | nil => rfl
  | cons call outer =>
    refine if_neg ?_
    rintro rfl
    exact under (Or.inr ⟨call.2, outer, rfl⟩)

lemma callIn_of_callInto {opened runs : List (ℕ × ℕ)} {next : ℕ}
    (numbered : Numbered opened runs next) {library depth run : ℕ}
    (into : callInto opened runs library = some (depth, run)) :
    callIn opened run = some depth := by
  have own : ∀ call ∈ opened, call.2 = run → call.1 = library := fun call member same =>
    numbered.once call (List.mem_append_left _ member) (library, run)
      (List.mem_append_left _ (callInto_mem into)) same
  clear numbered
  induction opened with
  | nil => cases into
  | cons call outer ih =>
    unfold callInto at into
    unfold callIn
    by_cases same : call.1 = library
    · rw [if_pos same] at into
      cases into
      exact if_pos rfl
    · rw [if_neg same] at into
      rw [if_neg fun made => same (own call (by simp) made)]
      exact ih into fun call member => own call (List.mem_cons_of_mem _ member)

lemma runCall_of_inRun {opened runs : List (ℕ × ℕ)} {next : ℕ}
    (numbered : Numbered opened runs next) {library : ℕ} (inRun : InRun opened runs library) :
    runCall opened runs library = callInto opened runs library := by
  unfold runCall
  cases into : callInto opened runs library with
  | some call =>
    rw [inRun call.1 call.2 into, Option.bind_some, callIn_of_callInto numbered into]
    rfl
  | none =>
    cases inside : innermostOf runs library with
    | none => rfl
    | some run =>
      have other : ∀ call ∈ opened, call.2 ≠ run := fun call member made =>
        callInto_eq_none.mp into call member (numbered.once call (List.mem_append_left _ member)
          (library, run) (List.mem_append_right _ (mem_of_innermostOf inside)) made)
      rw [Option.bind_some, callIn_eq_none other]
      rfl

lemma runCall_run {opened runs : List (ℕ × ℕ)} {library depth run : ℕ}
    (lent : runCall opened runs library = some (depth, run)) :
    innermostOf runs library = some run := by
  obtain ⟨run, inside, picked⟩ := Option.bind_eq_some_iff.mp lent
  obtain ⟨depth, made, same⟩ := Option.map_eq_some_iff.mp picked
  cases same
  exact inside

def telling (statuses : Statuses) (library run : ℕ) : Code .host :=
  .strays library (fun lent => .ends (if lent = run then .answered else .panicked 1))
    fun status => .ends (if status = statuses.answered then .answered else .panicked 1)

lemma means_telling (statuses : Statuses) (lends : Lending) (opened runs : List (ℕ × ℕ))
    (library run next : ℕ) (distinct : statuses.hostException ≠ statuses.answered) :
    ((telling statuses library run).means statuses lends opened runs next).answer =
      if (lends opened runs library).map Prod.snd = some run then .answered else .panicked 1 := by
  unfold telling Code.means
  cases lends opened runs library with
  | none => simp [Code.means, distinct]
  | some call =>
    by_cases same : call.2 = run
    · simp [Code.means, same, Statuses.told, Ended.caught]
    · simp [Code.means, same, Statuses.told, Ended.caught, distinct]

lemma means_telling_ne (statuses : Statuses) (lends : Lending) {opened runs : List (ℕ × ℕ)}
    {library depth run : ℕ} (next : ℕ) (distinct : statuses.hostException ≠ statuses.answered)
    (into : callInto opened runs library = some (depth, run))
    (other : (lends opened runs library).map Prod.snd ≠ some run) :
    ((telling statuses library run).means statuses lends opened runs next).answer ≠
      ((telling statuses library run).means statuses callInto opened runs next).answer := by
  rw [means_telling statuses lends _ _ _ _ _ distinct,
    means_telling statuses callInto _ _ _ _ _ distinct, if_neg other, into]
  simp

/-- Code comes to what it means in a stack of the calls open where each stray implementation it
    reaches is of the library of the innermost call, or of one with no call open; and in frames of
    the runs where no run of its library is open inside the innermost call into it. A stray one of
    any other library can tell the difference. -/
theorem failures_come_back (statuses : Statuses)
    (distinct : statuses.hostException ≠ statuses.answered) {thread : Thread} {routine : Goroutine}
    (roots : RootsOpen thread.opened thread.runs)
    (numbered : Numbered (openedOf thread.calls) thread.runs thread.next)
    (alike : routine = ⟨thread.opened, thread.runs, framesOf thread.calls, thread.next⟩) (own : ℕ) :
    (∀ code : Code .host,
      let meant := code.means statuses callInto (openedOf thread.calls) thread.runs thread.next
      (code.Strays statuses OnTop (openedOf thread.calls) thread.runs thread.next →
        code.stacked statuses own thread = (meant.answer, { thread with
          calls := leave thread.calls meant.left
          next := meant.next })) ∧
      (code.Strays statuses InRun (openedOf thread.calls) thread.runs thread.next →
        code.framed statuses own routine = (meant.answer, { routine with
          frames := framesOf (leave thread.calls meant.left)
          next := meant.next }))) ∧
      (∀ library, ¬OnTop (openedOf thread.calls) thread.runs library → ∃ body rest,
        ((Code.strays library body rest).stacked statuses own thread).1 ≠
          ((Code.strays library body rest).means statuses callInto (openedOf thread.calls)
            thread.runs thread.next).answer) ∧
      ∀ library, ¬InRun (openedOf thread.calls) thread.runs library → ∃ body rest,
        ((Code.strays library body rest).framed statuses own routine).1 ≠
          ((Code.strays library body rest).means statuses callInto (openedOf thread.calls)
            thread.runs thread.next).answer := by
  subst alike
  have stack := fun code : Code .host => stack_means statuses code own thread roots
    (by intro native; cases native)
  have frames := fun code : Code .host => frames_mean statuses code own thread.calls
    ⟨thread.opened, thread.runs, framesOf thread.calls, thread.next⟩ roots numbered rfl
    (by intro native; cases native)
  refine ⟨fun code => ⟨fun strays => ?_, fun strays => ?_⟩, fun library under => ?_,
    fun library under => ?_⟩
  · have means := means_of_strays statuses (fun _ onTop => topCall_of_onTop onTop) code _ _ _
      numbered strays
    rw [stack code, means]
    rfl
  · have means := means_of_strays statuses (fun known inRun => runCall_of_inRun known inRun) code _ _
      _ numbered strays
    rw [frames code, means]
    rfl
  · have lent := topCall_of_not_onTop under
    cases into : callInto (openedOf thread.calls) thread.runs library with
    | none => exact absurd (Or.inl (callInto_eq_none.mp into)) under
    | some call =>
      have ne := means_telling_ne statuses topCall thread.next distinct into
        (by rw [lent]; simp)
      exact ⟨_, _, fun same => ne ((congrArg Prod.fst (stack (telling statuses library
        call.2))).symm.trans same)⟩
  · simp only [InRun, not_forall] at under
    obtain ⟨depth, run, into, other⟩ := under
    have ne := means_telling_ne statuses runCall thread.next distinct into (by
      intro lent
      obtain ⟨⟨depth, lender⟩, picked, same⟩ := Option.map_eq_some_iff.mp lent
      cases same
      exact other (runCall_run picked))
    exact ⟨_, _, fun same => ne ((congrArg Prod.fst (frames (telling statuses library
      run))).symm.trans same)⟩

def CallEnded.again : CallEnded → Ended
  | .answered => .answered
  | .failed failure => .failed (.crossing failure)
  | .panicked payload => .panicked payload

def failing : Code .host :=
  .opens 1 (fun _ => .calls 1
    (.callsBack (fun _ => .strays 2 (fun _ => .ends .answered) fun _ =>
      .ends (.failed (.host (.failure .foreign)))) .answers)
    fun ended => .ends ended.again)
    fun ended => .ends (ended.getD .answered)

/-- The call ends with the error wrapped as the host's own. -/
theorem failures_come_back_failing :
    (failing.stacked ⟨0, 1, 2, 3, fun _ => none⟩ 0 ⟨[], [], [], 0⟩).1 =
        .failed (.crossing (.host (.failure .foreign))) ∧
      (failing.framed ⟨0, 1, 2, 3, fun _ => none⟩ 0 ⟨[], [], framesOf [], 0⟩).1 =
        .failed (.crossing (.host (.failure .foreign))) := by
  have both := (@failures_come_back ⟨0, 1, 2, 3, fun _ => none⟩ (by decide) ⟨[], [], [], 0⟩
    ⟨[], [], framesOf [], 0⟩ (by intro library; simp [innermostOf]) ⟨by simp [openedOf],
    by simp [openedOf]⟩ rfl 0).1 failing
  have strays : ∀ meets : List (ℕ × ℕ) → List (ℕ × ℕ) → ℕ → Prop, meets [(1, 0)] [(1, 0)] 2 →
      failing.Strays ⟨0, 1, 2, 3, fun _ => none⟩ meets [] [] 0 := by
    intro meets met
    exact ⟨⟨⟨⟨met, trivial⟩, trivial⟩, trivial⟩, trivial⟩
  rw [both.1 (strays OnTop (Or.inl (by decide))), both.2 (strays InRun (by
    intro depth run into
    cases into))]
  exact ⟨rfl, rfl⟩

/-- A stray implementation of a library, failing inside a call into another made in a callback of a
    call into the first. -/
def nested : Code .host :=
  .opens 1 (fun _ => .opens 2 (fun _ => .calls 1
      (.callsBack (fun _ => .calls 2
        (.callsBack (fun _ => .strays 1 (fun _ => .ends (.failed (.host (.plain 5))))
          fun _ => .ends .answered) .answers)
        fun _ => .ends .answered) .answers)
      fun ended => .ends ended.again)
    fun ended => .ends (ended.getD .answered)) fun ended => .ends (ended.getD .answered)

def reopened : Code .host :=
  .opens 1 (fun _ => .calls 1
      (.callsBack (fun _ => .scopes 1 (fun _ => .strays 1
        (fun _ => .ends (.failed (.host (.plain 5)))) fun _ => .ends .answered) .ends) .answers)
      fun ended => .ends ended.again)
    fun ended => .ends (ended.getD .answered)

/-- The stack of the calls keeps nothing of the first, and frames of the runs nothing of the second,
    where each is a failure of a call still open. -/
theorem failures_come_back_nested :
    ((nested.means ⟨0, 1, 2, 3, fun _ => none⟩ callInto [] [] 0).answer =
        .failed (.crossing (.host (.plain 5))) ∧
      (nested.framed ⟨0, 1, 2, 3, fun _ => none⟩ 0 ⟨[], [], framesOf [], 0⟩).1 =
        .failed (.crossing (.host (.plain 5))) ∧
      (nested.stacked ⟨0, 1, 2, 3, fun _ => none⟩ 0 ⟨[], [], [], 0⟩).1 = .answered) ∧
    (reopened.means ⟨0, 1, 2, 3, fun _ => none⟩ callInto [] [] 0).answer =
        .failed (.crossing (.host (.plain 5))) ∧
      (reopened.stacked ⟨0, 1, 2, 3, fun _ => none⟩ 0 ⟨[], [], [], 0⟩).1 =
        .failed (.crossing (.host (.plain 5))) ∧
      (reopened.framed ⟨0, 1, 2, 3, fun _ => none⟩ 0 ⟨[], [], framesOf [], 0⟩).1 = .answered :=
  ⟨⟨rfl, rfl, rfl⟩, rfl, rfl, rfl⟩

end SoutherNative.Callbacks
