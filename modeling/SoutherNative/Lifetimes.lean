import Mathlib
import SoutherNative.Transport

set_option autoImplicit false

/-!
# What a function value reads

What a host binds and implements, the rooms laid out for what a library is called with, and the
function values a library makes. A function value keeps the address of the capabilities the call it
was made in was handed, and reads through it each time it is called, while a room is freed with what
it was laid out for. A behavior takes and answers no function, so what it makes is called inside its
call; the functions a host is handed are a published value's, which is handed nothing. The Rust
runtime lays out where it binds, and the PHP runtime where a call first asks.
-/
namespace SoutherNative.Lifetimes
open Transport

inductive Room
  /-- The capabilities of what a behavior requires, in order, and nothing where nothing was handed. -/
  | requirements (capabilities : List (Option ℕ))
  /-- What a capability's code is called with: what its behavior requires, or a host's own
      implementation. -/
  | capability (environment : Option ℕ)
  | hosted
  deriving DecidableEq

def Room.holds : Room → List ℕ
  | .requirements capabilities => capabilities.filterMap id
  | .capability environment => environment.toList
  | .hosted => []

structure Layout where
  requirements : Option ℕ
  capability : Option ℕ
  hosted : Option ℕ

def Layout.rooms (layout : Layout) : List ℕ :=
  layout.requirements.toList ++ (layout.capability.toList ++ layout.hosted.toList)

inductive Kind
  | implemented
  | bound (binds : Bool)
  deriving DecidableEq

/-- What stands for a behavior: what it holds on to of what else the host holds, and what was laid
    out for it, by the runtime it was laid out for. -/
structure Thing where
  kind : Kind
  requires : List (Option ℕ)
  laid : List (ℕ × Layout)

def Thing.rooms (thing : Thing) : List ℕ := thing.laid.flatMap fun laid => laid.2.rooms

inductive BoundaryInput
  | scalar (scalar : Prim)
  | nominal (named : Case)
  | listOf (element : BoundaryInput)
  | setOf (element : BoundaryInput)
  | mapOf (key : MapKey) (value : BoundaryInput)

def BoundaryInput.ty : BoundaryInput → Ty
  | .scalar p => .prim p
  | .nominal named => .ref named
  | .listOf element => .list element.ty
  | .setOf element => .set element.ty
  | .mapOf key value => .map key.ty value.ty

inductive BoundaryOutput
  | scalar (scalar : Prim)
  | nominal (named : Case)
  | listOf (element : BoundaryOutput)
  | setOf (element : BoundaryOutput)
  | mapOf (key : MapKey) (value : BoundaryOutput)
  | cases (union : Cases)

def BoundaryOutput.ty : BoundaryOutput → Ty
  | .scalar p => .prim p
  | .nominal named => .ref named
  | .listOf element => .list element.ty
  | .setOf element => .set element.ty
  | .mapOf key value => .map key.ty value.ty
  | .cases union => .union union

mutual

def holdsFunction : Ty → Bool
  | .fn _ _ | .var _ => true
  | .option element | .list element | .set element => holdsFunction element
  | .map key value => holdsFunction key || holdsFunction value
  | .tuple members => anyHoldsFunction members
  | .prim _ | .ref _ | .union _ | .nothing | .never => false

def anyHoldsFunction : List Ty → Bool
  | [] => false
  | ty :: rest => holdsFunction ty || anyHoldsFunction rest

end

inductive Callee
  | behavior (inputs : List BoundaryInput) (output : BoundaryOutput)
  | value (answers : Ty)
  | function (takes : List Ty) (answers : Ty)

def Callee.isBehavior : Callee → Bool
  | .behavior _ _ => true
  | _ => false

def Callee.takesFunction : Callee → Bool
  | .behavior inputs _ => anyHoldsFunction (inputs.map BoundaryInput.ty)
  | .value _ => false
  | .function takes _ => anyHoldsFunction takes

def Callee.answersFunction : Callee → Bool
  | .behavior _ output => holdsFunction output.ty
  | .value answers | .function _ answers => holdsFunction answers

/-- A call into a library: what it was handed, the host's own thing it is a call of, whether the host
    made it, whether it may hold a function of the host's own, and what each function value made in
    it keeps. -/
structure Call where
  run : ℕ
  callee : Callee
  environment : Option ℕ
  borrowed : Option ℕ
  byHost : Bool
  hosted : Bool
  made : List (Option ℕ)

inductive Frame
  | run (id runtime : ℕ)
  | call (call : Call)

structure FunctionValue where
  run : ℕ
  environment : Option ℕ

structure State where
  things : ℕ → Option Thing
  many : ℕ
  room : ℕ → Option Room
  next : ℕ
  stack : List Frame
  runs : ℕ
  functions : List FunctionValue

def State.start : State := ⟨fun _ => none, 0, fun _ => none, 0, [], 0, []⟩

def Open (stack : List Frame) (run : ℕ) : Prop := ∃ runtime, Frame.run run runtime ∈ stack

def innermost : List Frame → Option (ℕ × ℕ)
  | [] => none
  | .run id runtime :: _ => some (id, runtime)
  | .call _ :: rest => innermost rest

def Holds (room : ℕ → Option Room) (holder held : ℕ) : Prop :=
  ∃ laid, room holder = some laid ∧ held ∈ laid.holds

def Reaches (room : ℕ → Option Room) : ℕ → ℕ → Prop :=
  Relation.ReflTransGen (Holds room)

def State.hold (s : State) (kind : Kind) (requires : List (Option ℕ)) : State :=
  { s with
    things := fun t => if t = s.many then some ⟨kind, requires, []⟩ else s.things t
    many := s.many + 1 }

def State.capabilityOf (s : State) (runtime : ℕ) (required : ℕ) : Option ℕ :=
  match s.things required with
  | some thing => (thing.laid.lookup runtime).bind Layout.capability
  | none => none

def State.layoutOf (s : State) (runtime : ℕ) (thing : Thing) : Layout × List Room :=
  match thing.kind with
  | .implemented => (⟨none, some (s.next + 1), some s.next⟩, [.hosted, .capability (some s.next)])
  | .bound binds =>
    let capabilities := thing.requires.map fun required => required.bind (s.capabilityOf runtime)
    let requirements := if thing.requires = [] then none else some s.next
    (⟨requirements, if binds then some (s.next + 1) else none, none⟩,
      [.requirements capabilities, .capability requirements])

def State.layOut (s : State) (t runtime : ℕ) (thing : Thing) : State :=
  let laid := s.layoutOf runtime thing
  { s with
    things := fun other =>
      if other = t then some { thing with laid := (runtime, laid.1) :: thing.laid }
      else s.things other
    room := fun address =>
      if address < s.next then s.room address
      else if address ∈ laid.1.rooms then laid.2[address - s.next]? else none
    next := s.next + 2 }

def State.drop (s : State) (t : ℕ) (thing : Thing) : State :=
  { s with
    things := fun other => if other = t then none else s.things other
    room := fun address => if address ∈ thing.rooms then none else s.room address }

inductive Act
  | hold (kind : Kind) (requires : List (Option ℕ))
  | layOut (t runtime : ℕ)
  | openRun (runtime : ℕ)
  | closeRun
  | call (t : ℕ)
  | readValue
  | callFunction (function : FunctionValue)
  | make (kept : Option ℕ)
  | reach (environment : Option ℕ)
  | apply (kept : Option ℕ)
  | hand (kept : List (Option ℕ))
  | leave (answered : List (Option ℕ))
  | drop (t : ℕ)

/-- What safe code admits, and what a library does. A thing is held on to by what is bound to it and
    by a call of it, and is let go of only where neither is; a function value is called only in its
    run. A closure keeps what its call was handed, or nothing. -/
inductive Step : Act → State → State → Prop
  | hold {s : State} (kind : Kind) (requires : List (Option ℕ))
    (there : ∀ required, some required ∈ requires → s.things required ≠ none) :
    Step (.hold kind requires) s (s.hold kind requires)
  | layOut {s : State} (t runtime : ℕ) {thing : Thing} (held : s.things t = some thing)
    (new : thing.laid.lookup runtime = none) :
    Step (.layOut t runtime) s (s.layOut t runtime thing)
  | openRun {s : State} (runtime : ℕ) : Step (.openRun runtime) s
      { s with stack := .run s.runs runtime :: s.stack, runs := s.runs + 1 }
  | closeRun {s : State} {id runtime : ℕ} {rest : List Frame}
    (top : s.stack = .run id runtime :: rest) : Step .closeRun s { s with stack := rest }
  | call {s : State} (t : ℕ) {run runtime : ℕ} {thing : Thing} {layout : Layout} {hosted : Bool}
    {given : List FunctionValue} (inputs : List BoundaryInput) (output : BoundaryOutput)
    (inside : innermost s.stack = some (run, runtime)) (held : s.things t = some thing)
    (laid : thing.laid.lookup runtime = some layout)
    (among : ∀ other ∈ given, other ∈ s.functions ∧ other.run = run)
    (takesNone : (Callee.behavior inputs output).takesFunction = false →
      hosted = false ∧ given = []) :
    Step (.call t) s { s with
      stack := .call ⟨run, .behavior inputs output, layout.requirements, some t, true, hosted,
        given.map FunctionValue.environment⟩ :: s.stack }
  | readValue {s : State} {run runtime : ℕ} (answers : Ty)
    (inside : innermost s.stack = some (run, runtime)) :
    Step .readValue s { s with
      stack := .call ⟨run, .value answers, none, none, true, false, []⟩ :: s.stack }
  -- What is handed over may be a function of the host's own, or one it was handed.
  | callFunction {s : State} {function : FunctionValue} {runtime : ℕ} (takes : List Ty) (answers : Ty)
    {hosted : Bool} {given : List FunctionValue} (handed : function ∈ s.functions)
    (inside : innermost s.stack = some (function.run, runtime))
    (among : ∀ other ∈ given, other ∈ s.functions ∧ other.run = function.run)
    (takesNone : (Callee.function takes answers).takesFunction = false →
      hosted = false ∧ given = []) :
    Step (.callFunction function) s { s with
      stack := .call ⟨function.run, .function takes answers, function.environment, none, true,
        hosted, given.map FunctionValue.environment⟩ :: s.stack }
  | make {s : State} {call : Call} {kept : Option ℕ} {rest : List Frame}
    (top : s.stack = .call call :: rest) (keeps : kept = none ∨ kept = call.environment) :
    Step (.make kept) s { s with stack := .call { call with made := kept :: call.made } :: rest }
  -- Through a capability, with what it was laid out with, or by the symbol of one that requires
  -- nothing.
  | reach {s : State} {call : Call} {environment : Option ℕ} {rest : List Frame} {hosted : Bool}
    {given : List (Option ℕ)} (inputs : List BoundaryInput) (output : BoundaryOutput)
    (top : s.stack = .call call :: rest)
    (through : ∀ other ∈ environment, ∃ own ∈ call.environment, Reaches s.room own other)
    (among : given ⊆ call.made) (hosts : hosted = true → call.hosted = true)
    (takesNone : (Callee.behavior inputs output).takesFunction = false →
      hosted = false ∧ given = []) :
    Step (.reach environment) s { s with
      stack := .call ⟨call.run, .behavior inputs output, environment, none, false, hosted, given⟩ ::
        s.stack }
  | apply {s : State} {call : Call} {kept : Option ℕ} {rest : List Frame} {hosted : Bool}
    {given : List (Option ℕ)} (takes : List Ty) (answers : Ty)
    (top : s.stack = .call call :: rest) (made : kept ∈ call.made) (among : given ⊆ call.made)
    (hosts : hosted = true → call.hosted = true) :
    Step (.apply kept) s { s with
      stack := .call ⟨call.run, .function takes answers, kept, none, false, hosted, given⟩ ::
        s.stack }
  -- A function of the host's own is called.
  | hand {s : State} {call : Call} {kept : List (Option ℕ)} {rest : List Frame}
    (top : s.stack = .call call :: rest) (hosted : call.hosted = true) (among : kept ⊆ call.made) :
    Step (.hand kept) s { s with functions := kept.map (FunctionValue.mk call.run) ++ s.functions }
  | leaveToHost {s : State} {call : Call} {answered : List (Option ℕ)} {rest : List Frame}
    (top : s.stack = .call call :: rest) (byHost : call.byHost = true) (among : answered ⊆ call.made)
    (answersNone : call.callee.answersFunction = false → answered = []) :
    Step (.leave answered) s { s with
      stack := rest
      functions := answered.map (FunctionValue.mk call.run) ++ s.functions }
  | leave {s : State} {call outer : Call} {answered : List (Option ℕ)} {rest : List Frame}
    (top : s.stack = .call call :: .call outer :: rest) (byHost : call.byHost = false)
    (among : answered ⊆ call.made) (answersNone : call.callee.answersFunction = false → answered = []) :
    Step (.leave answered) s { s with
      stack := .call { outer with made := answered ++ outer.made } :: rest }
  | drop {s : State} {t : ℕ} {thing : Thing} (held : s.things t = some thing)
    (unrequired : ∀ other standing, s.things other = some standing → some t ∉ standing.requires)
    (unborrowed : ∀ call, Frame.call call ∈ s.stack → call.borrowed ≠ some t) :
    Step (.drop t) s (s.drop t thing)

inductive Reached : State → Prop
  | start : Reached .start
  | step {s s' : State} {act : Act} (before : Reached s) (steps : Step act s s') : Reached s'

def Kept (s : State) (address : ℕ) : Prop :=
  ∀ other, Reaches s.room address other → s.room other ≠ none

/-- What an open call reads, and what every function value that can still be called reads, is kept:
    one made in a call that is open, or one a host was handed in a run that is. -/
structure NothingGone (s : State) : Prop where
  calls : ∀ call, Frame.call call ∈ s.stack → ∀ environment ∈ call.environment, Kept s environment
  made : ∀ call, Frame.call call ∈ s.stack → ∀ environment, some environment ∈ call.made →
    Kept s environment
  functions : ∀ function ∈ s.functions, Open s.stack function.run →
    ∀ environment ∈ function.environment, Kept s environment

def Requires (s : State) (t other : ℕ) : Prop :=
  ∃ thing, s.things t = some thing ∧ some other ∈ thing.requires

def Under (s : State) (t : ℕ) (address : ℕ) : Prop :=
  ∃ other thing, Relation.ReflTransGen (Requires s) t other ∧ s.things other = some thing ∧
    address ∈ thing.rooms

def Borrows (stack : List Frame) (t : ℕ) : Prop :=
  ∃ call, Frame.call call ∈ stack ∧ call.borrowed = some t

inductive Backed (s : State) : List Frame → Prop
  | nil : Backed s []
  | run {rest : List Frame} (id runtime : ℕ) (inner : Backed s rest) :
    Backed s (.run id runtime :: rest)
  | call {rest : List Frame} {call : Call}
    (under : ∀ address, call.environment = some address ∨ some address ∈ call.made →
      ∃ t, Borrows (.call call :: rest) t ∧ Under s t address) (inner : Backed s rest) :
    Backed s (.call call :: rest)

structure Call.Bare (call : Call) : Prop where
  environment : call.environment = none
  made : ∀ kept ∈ call.made, kept = none

inductive Barely : List Frame → Prop
  | nil : Barely []
  | run {rest : List Frame} (id runtime : ℕ) (inner : Barely rest) : Barely (.run id runtime :: rest)
  | call {rest : List Frame} {call : Call} (hosted : call.hosted = true → call.Bare)
    (byHost : call.byHost = true → call.callee.isBehavior = false → call.Bare)
    (inside : call.byHost = false → call.borrowed = none ∧
      ∀ outer further, rest = .call outer :: further → outer.Bare → call.Bare)
    (inner : Barely rest) : Barely (.call call :: rest)

structure Sound (s : State) : Prop where
  below : ∀ t thing, s.things t = some thing → t < s.many
  there : ∀ t thing, s.things t = some thing → ∀ address ∈ thing.rooms,
    address < s.next ∧ s.room address ≠ none
  apart : ∀ t thing other standing, s.things t = some thing → s.things other = some standing →
    ∀ address ∈ thing.rooms, address ∈ standing.rooms → t = other
  required : ∀ t other, Requires s t other → s.things other ≠ none
  edges : ∀ t thing, s.things t = some thing → ∀ address ∈ thing.rooms, ∀ held,
    Holds s.room address held → ∃ other standing, (other = t ∨ Requires s t other) ∧
      s.things other = some standing ∧ held ∈ standing.rooms
  borrowed : ∀ call, Frame.call call ∈ s.stack → ∀ t, call.borrowed = some t → s.things t ≠ none
  backed : Backed s s.stack
  bare : Barely s.stack
  functions : ∀ function ∈ s.functions, function.environment = none

lemma input_holdsFunction : ∀ input : BoundaryInput, holdsFunction input.ty = false
  | .scalar _ | .nominal _ => rfl
  | .listOf element | .setOf element => by
    rw [BoundaryInput.ty, holdsFunction]
    exact input_holdsFunction element
  | .mapOf key value => by
    rw [BoundaryInput.ty, holdsFunction, input_holdsFunction value, Bool.or_false]
    cases key <;> rfl

lemma takesFunction_behavior (inputs : List BoundaryInput) (output : BoundaryOutput) :
    (Callee.behavior inputs output).takesFunction = false := by
  rw [Callee.takesFunction]
  induction inputs with
  | nil => rfl
  | cons input rest ih =>
    rw [List.map_cons, anyHoldsFunction, input_holdsFunction, ih]
    rfl

lemma answersFunction_behavior (inputs : List BoundaryInput) (output : BoundaryOutput) :
    (Callee.behavior inputs output).answersFunction = false := by
  rw [Callee.answersFunction]
  induction output with
  | scalar _ | nominal _ | cases _ => rfl
  | listOf element ih | setOf element ih =>
    rw [BoundaryOutput.ty, holdsFunction]
    exact ih
  | mapOf key value ih =>
    rw [BoundaryOutput.ty, holdsFunction, ih, Bool.or_false]
    cases key <;> rfl

section

variable {s : State}

lemma Sound.under_holds (sound : Sound s) {t : ℕ} {address held : ℕ}
    (under : Under s t address) (holds : Holds s.room address held) : Under s t held := by
  obtain ⟨other, thing, path, there, among⟩ := under
  obtain ⟨next, standing, which, there', among'⟩ := sound.edges other thing there address among held
    holds
  refine ⟨next, standing, ?_, there', among'⟩
  rcases which with rfl | requires
  · exact path
  · exact path.tail requires

lemma Sound.under_reaches (sound : Sound s) {t : ℕ} {address other : ℕ}
    (under : Under s t address) (reaches : Reaches s.room address other) : Under s t other := by
  induction reaches with
  | refl => exact under
  | tail _ holds ih => exact sound.under_holds ih holds

lemma Sound.kept (sound : Sound s) {t address : ℕ} (under : Under s t address) : Kept s address := by
  intro other reaches
  obtain ⟨owner, thing, -, there, among⟩ := sound.under_reaches under reaches
  exact (sound.there owner thing there other among).2

lemma Borrows.cons {stack : List Frame} {t : ℕ} (frame : Frame) (borrows : Borrows stack t) :
    Borrows (frame :: stack) t := by
  obtain ⟨call, member, borrowed⟩ := borrows
  exact ⟨call, List.mem_cons_of_mem _ member, borrowed⟩

/-- What a call reads stays under what it is of where that stays under it. -/
lemma Backed.mono {s' : State} {stack : List Frame} (backed : Backed s stack)
    (stay : ∀ t address, Borrows stack t → Under s t address → Under s' t address) :
    Backed s' stack := by
  induction backed with
  | nil => exact .nil
  | run id runtime _ ih => exact .run id runtime (ih fun t a borrows => stay t a (borrows.cons _))
  | call under _ ih =>
    refine .call ?_ (ih fun t a borrows => stay t a (borrows.cons _))
    intro address reads
    obtain ⟨t, borrows, beneath⟩ := under address reads
    exact ⟨t, borrows, stay t address borrows beneath⟩

/-- Every call open is backed by what is under it and around it. -/
lemma Backed.under {stack : List Frame} (backed : Backed s stack) {call : Call}
    (member : Frame.call call ∈ stack) {address : ℕ}
    (reads : call.environment = some address ∨ some address ∈ call.made) :
    ∃ t, Borrows stack t ∧ Under s t address := by
  induction backed with
  | nil => cases member
  | run id runtime _ ih =>
    rcases List.mem_cons.mp member with same | among
    · cases same
    · obtain ⟨t, borrows, beneath⟩ := ih among
      exact ⟨t, borrows.cons _, beneath⟩
  | call under _ ih =>
    rcases List.mem_cons.mp member with same | among
    · cases same
      exact under address reads
    · obtain ⟨t, borrows, beneath⟩ := ih among
      exact ⟨t, borrows.cons _, beneath⟩

lemma Sound.nothingGone (sound : Sound s) : NothingGone s where
  calls call member environment handed := by
    obtain ⟨t, -, under⟩ := sound.backed.under member (Or.inl handed)
    exact sound.kept under
  made call member environment among := by
    obtain ⟨t, -, under⟩ := sound.backed.under member (Or.inr among)
    exact sound.kept under
  functions function member _ environment keeps := by
    have keeps : function.environment = some environment := keeps
    rw [sound.functions function member] at keeps
    cases keeps

/-- A thing stays under another where every thing stays, holding on to what it did, with the rooms
    it had. -/
lemma Under.mono {s' : State} {t : ℕ} {address : ℕ} (under : Under s t address)
    (stay : ∀ other thing, s.things other = some thing → ∃ thing', s'.things other = some thing' ∧
      thing'.requires = thing.requires ∧ ∀ a ∈ thing.rooms, a ∈ thing'.rooms) :
    Under s' t address := by
  obtain ⟨other, thing, path, there, among⟩ := under
  obtain ⟨thing', there', -, rooms⟩ := stay other thing there
  refine ⟨other, thing', Relation.ReflTransGen.mono ?_ _ _ path, there', rooms address among⟩
  rintro a b ⟨standing, stands, requires⟩
  obtain ⟨standing', stands', same, -⟩ := stay a standing stands
  exact ⟨standing', stands', same ▸ requires⟩

lemma Sound.hold (sound : Sound s) (kind : Kind) {requires : List (Option ℕ)}
    (held : ∀ required, some required ∈ requires → s.things required ≠ none) :
    Sound (s.hold kind requires) := by
  have old : ∀ t thing, s.things t = some thing → (s.hold kind requires).things t = some thing := by
    intro t thing there
    have below := sound.below t thing there
    exact (if_neg (by omega)).trans there
  have stay : ∀ t thing, s.things t = some thing → ∃ thing',
      (s.hold kind requires).things t = some thing' ∧ thing'.requires = thing.requires ∧
        ∀ a ∈ thing.rooms, a ∈ thing'.rooms :=
    fun t thing there => ⟨thing, old t thing there, rfl, fun _ => id⟩
  have cases : ∀ t thing, (s.hold kind requires).things t = some thing →
      (t = s.many ∧ thing = ⟨kind, requires, []⟩) ∨ s.things t = some thing := by
    intro t thing there
    unfold State.hold at there
    dsimp only at there
    split at there
    · rename_i same
      cases there
      exact Or.inl ⟨same, rfl⟩
    · exact Or.inr there
  have grown : ∀ t, s.things t ≠ none → (s.hold kind requires).things t ≠ none := by
    intro t some
    obtain ⟨thing, there⟩ := Option.ne_none_iff_exists'.mp some
    rw [old t thing there]
    exact Option.some_ne_none _
  refine ⟨?_, ?_, ?_, ?_, ?_, ?_, ?_, sound.bare, sound.functions⟩
  · intro t thing there
    have more : (s.hold kind requires).many = s.many + 1 := rfl
    rcases cases t thing there with ⟨same, -⟩ | before
    · omega
    · have := sound.below t thing before
      omega
  · intro t thing there address among
    rcases cases t thing there with ⟨-, rfl⟩ | before
    · cases among
    · exact sound.there t thing before address among
  · intro t thing other standing there there' address among among'
    rcases cases t thing there with ⟨-, rfl⟩ | before
    · cases among
    · rcases cases other standing there' with ⟨-, rfl⟩ | before'
      · cases among'
      · exact sound.apart t thing other standing before before' address among among'
  · rintro t other ⟨thing, there, requires'⟩
    rcases cases t thing there with ⟨-, rfl⟩ | before
    · exact grown other (held other requires')
    · exact grown other (sound.required t other ⟨thing, before, requires'⟩)
  · intro t thing there address among inside holds
    rcases cases t thing there with ⟨-, rfl⟩ | before
    · cases among
    · obtain ⟨other, standing, which, stands, inRooms⟩ :=
        sound.edges t thing before address among inside holds
      refine ⟨other, standing, which.imp id ?_, old other standing stands, inRooms⟩
      rintro ⟨thing', there', requires'⟩
      exact ⟨thing', old t thing' there', requires'⟩
  · exact fun call member t borrowed => grown t (sound.borrowed call member t borrowed)
  · exact sound.backed.mono fun _ _ _ under => under.mono stay

lemma Sound.openRun (sound : Sound s) (runtime : ℕ) :
    Sound { s with stack := .run s.runs runtime :: s.stack, runs := s.runs + 1 } :=
  ⟨sound.below, sound.there, sound.apart, sound.required, sound.edges,
    fun call member => sound.borrowed call (by simpa using member),
    .run _ _ (sound.backed.mono fun _ _ _ => id), .run _ _ sound.bare, sound.functions⟩

lemma Sound.pop (sound : Sound s) {frame : Frame} {rest : List Frame}
    (top : s.stack = frame :: rest) {handed : List FunctionValue}
    (keeps : ∀ function ∈ handed, function.environment = none) :
    Sound { s with stack := rest, functions := handed ++ s.functions } := by
  have backed := sound.backed
  have bare := sound.bare
  rw [top] at backed bare
  refine ⟨sound.below, sound.there, sound.apart, sound.required, sound.edges, ?_, ?_, ?_, ?_⟩
  · intro call member
    apply sound.borrowed call
    rw [top]
    exact List.mem_cons_of_mem _ member
  · have inner : Backed s rest := by cases backed <;> assumption
    exact inner.mono fun _ _ _ => id
  · cases bare <;> assumption
  · intro function member
    rcases List.mem_append.mp member with new | old
    · exact keeps function new
    · exact sound.functions function old

lemma mem_rooms_of_lookup {thing : Thing} {runtime : ℕ} {layout : Layout}
    (laid : thing.laid.lookup runtime = some layout) {address : ℕ}
    (among : address ∈ layout.rooms) : address ∈ thing.rooms := by
  have member : (runtime, layout) ∈ thing.laid := by
    rw [List.lookup_eq_some_iff] at laid
    obtain ⟨before, after, whole, -⟩ := laid
    rw [whole]
    simp
  exact List.mem_flatMap.mpr ⟨_, member, among⟩

/-- A call more, which reads what is under what it or a call around it is of. -/
lemma Sound.push (sound : Sound s) (call : Call)
    (borrowed : ∀ t, call.borrowed = some t → s.things t ≠ none)
    (under : ∀ address, call.environment = some address ∨ some address ∈ call.made →
      ∃ t, Borrows (.call call :: s.stack) t ∧ Under s t address)
    (bare : Barely (.call call :: s.stack)) : Sound { s with stack := .call call :: s.stack } := by
  refine ⟨sound.below, sound.there, sound.apart, sound.required, sound.edges, ?_,
    .call under (sound.backed.mono fun _ _ _ => id), bare, sound.functions⟩
  intro other member
  rcases List.mem_cons.mp member with same | among
  · cases same
    exact borrowed
  · exact sound.borrowed other among

/-- What a host hands over of the functions it was handed keeps nothing. -/
lemma Sound.given (sound : Sound s) {given : List FunctionValue} {run : ℕ}
    (among : ∀ other ∈ given, other ∈ s.functions ∧ other.run = run) :
    ∀ kept ∈ given.map FunctionValue.environment, kept = none := by
  intro kept member
  obtain ⟨other, handed, rfl⟩ := List.mem_map.mp member
  exact sound.functions other (among other handed).1

lemma Sound.pushBare (sound : Sound s) {call : Call} (byHost : call.byHost = true)
    (borrowed : call.borrowed = none) (bare : call.Bare) :
    Sound { s with stack := .call call :: s.stack } := by
  refine sound.push call ?_ ?_ (.call (fun _ => bare) (fun _ _ => bare) ?_ sound.bare)
  · intro t same
    rw [borrowed] at same
    cases same
  · rintro address (environment | made)
    · rw [bare.environment] at environment
      cases environment
    · cases bare.made _ made
  · intro inside
    rw [byHost] at inside
    cases inside

/-- A behavior is handed no function, and neither does it hand one back. -/
lemma Sound.call (sound : Sound s) (t : ℕ) {run runtime : ℕ} {thing : Thing} {layout : Layout}
    {hosted : Bool} {given : List FunctionValue} (inputs : List BoundaryInput)
    (output : BoundaryOutput) (held : s.things t = some thing)
    (laid : thing.laid.lookup runtime = some layout)
    (takesNone : (Callee.behavior inputs output).takesFunction = false →
      hosted = false ∧ given = []) :
    Sound { s with
      stack := .call ⟨run, .behavior inputs output, layout.requirements, some t, true, hosted,
        given.map FunctionValue.environment⟩ :: s.stack } := by
  obtain ⟨rfl, rfl⟩ := takesNone (takesFunction_behavior inputs output)
  refine sound.push _ ?_ ?_ (.call (by simp) (by simp [Callee.isBehavior]) (by simp) sound.bare)
  · intro other same
    cases same
    rw [held]
    exact Option.some_ne_none _
  · rintro address (environment | made)
    · refine ⟨t, ⟨_, List.mem_cons_self, rfl⟩, t, thing, .refl, held, mem_rooms_of_lookup laid ?_⟩
      have environment : layout.requirements = some address := environment
      simp [Layout.rooms, environment]
    · cases made

/-- What holds of the call a library is in. -/
lemma Sound.top (sound : Sound s) {call : Call} {rest : List Frame}
    (top : s.stack = .call call :: rest) :
    (∀ address, call.environment = some address ∨ some address ∈ call.made →
      ∃ t, Borrows (.call call :: rest) t ∧ Under s t address) ∧ (call.hosted = true → call.Bare) ∧
    (call.byHost = true → call.callee.isBehavior = false → call.Bare) ∧
    (call.byHost = false → call.borrowed = none ∧
      ∀ outer further, rest = .call outer :: further → outer.Bare → call.Bare) := by
  have backed := sound.backed
  have bare := sound.bare
  rw [top] at backed bare
  cases backed with
  | call under _ =>
    cases bare with
    | call hosted byHost inside _ => exact ⟨under, hosted, byHost, inside⟩

lemma Sound.pushInside (sound : Sound s) {call inner : Call} {rest : List Frame}
    (top : s.stack = .call call :: rest) (byHost : inner.byHost = false)
    (borrowed : inner.borrowed = none) (hosts : inner.hosted = true → call.hosted = true)
    (under : ∀ address, inner.environment = some address ∨ some address ∈ inner.made →
      ∃ t, Borrows s.stack t ∧ Under s t address) (bare : call.Bare → inner.Bare) :
    Sound { s with stack := .call inner :: s.stack } := by
  refine sound.push inner ?_ ?_ (.call ?_ ?_ ?_ sound.bare)
  · intro t same
    rw [borrowed] at same
    cases same
  · intro address reads
    obtain ⟨t, borrows, beneath⟩ := under address reads
    exact ⟨t, borrows.cons _, beneath⟩
  · exact fun hosted => bare ((sound.top top).2.1 (hosts hosted))
  · intro same
    rw [byHost] at same
    cases same
  · refine fun _ => ⟨borrowed, ?_⟩
    intro outer further same outerBare
    rw [top] at same
    cases same
    exact bare outerBare

/-- The functions made in the call a library is in are more. -/
lemma Sound.more (sound : Sound s) {call : Call} {rest : List Frame} {made : List (Option ℕ)}
    {stack : List Frame} (borrowed : ∀ other, Frame.call other ∈ rest → Frame.call other ∈ stack)
    (within : ∀ other, Frame.call other ∈ stack → ∀ t, other.borrowed = some t → s.things t ≠ none)
    (self : Frame.call call ∈ stack) (backed : Backed s (.call call :: rest))
    (bare : Barely (.call call :: rest))
    (under : ∀ address, some address ∈ made → ∃ t, Borrows (.call call :: rest) t ∧ Under s t address)
    (keeps : call.Bare → ∀ kept ∈ made, kept = none) :
    Sound { s with stack := .call { call with made := made ++ call.made } :: rest } := by
  have also : call.Bare → ({ call with made := made ++ call.made } : Call).Bare := by
    intro bare
    refine ⟨bare.environment, fun kept member => ?_⟩
    rcases List.mem_append.mp member with new | old
    · exact keeps bare kept new
    · exact bare.made kept old
  have same : ∀ {t}, Borrows (.call call :: rest) t →
      Borrows (.call { call with made := made ++ call.made } :: rest) t := by
    rintro t ⟨other, member, borrowed⟩
    rcases List.mem_cons.mp member with here | further
    · cases here
      exact ⟨_, List.mem_cons_self, borrowed⟩
    · exact ⟨other, List.mem_cons_of_mem _ further, borrowed⟩
  cases backed with
  | call reads inner =>
    cases bare with
    | call hosted byHost inside innerBare =>
      refine ⟨sound.below, sound.there, sound.apart, sound.required, sound.edges, ?_,
        .call ?_ (inner.mono fun _ _ _ => id),
        .call (fun h => also (hosted h)) (fun h h' => also (byHost h h'))
          (fun h => ⟨(inside h).1, fun outer further same outerBare =>
            also ((inside h).2 outer further same outerBare)⟩) innerBare, sound.functions⟩
      · intro other member
        rcases List.mem_cons.mp member with here | further
        · cases here
          exact within call self
        · exact within other (borrowed other further)
      · rintro address (environment | member)
        · obtain ⟨t, borrows, beneath⟩ := reads address (Or.inl environment)
          exact ⟨t, same borrows, beneath⟩
        · rcases List.mem_append.mp member with new | old
          · obtain ⟨t, borrows, beneath⟩ := under address new
            exact ⟨t, same borrows, beneath⟩
          · obtain ⟨t, borrows, beneath⟩ := reads address (Or.inr old)
            exact ⟨t, same borrows, beneath⟩

lemma Sound.make (sound : Sound s) {call : Call} {kept : Option ℕ} {rest : List Frame}
    (top : s.stack = .call call :: rest) (keeps : kept = none ∨ kept = call.environment) :
    Sound { s with stack := .call { call with made := kept :: call.made } :: rest } := by
  have backed := sound.backed
  have bare := sound.bare
  rw [top] at backed bare
  refine @Sound.more s sound call rest [kept] s.stack ?_ sound.borrowed ?_ backed bare ?_ ?_
  · intro other member
    rw [top]
    exact List.mem_cons_of_mem _ member
  · rw [top]
    exact List.mem_cons_self
  · intro address member
    rw [List.mem_singleton] at member
    rcases keeps with none | same
    · rw [none] at member
      cases member
    · exact (sound.top top).1 address (Or.inl (same.symm.trans member.symm))
  · intro bare other member
    rw [List.mem_singleton.mp member]
    rcases keeps with none | same
    · exact none
    · exact same.trans bare.environment

lemma Sound.leave (sound : Sound s) {call outer : Call} {answered : List (Option ℕ)}
    {rest : List Frame} (top : s.stack = .call call :: .call outer :: rest)
    (byHost : call.byHost = false) (among : answered ⊆ call.made) :
    Sound { s with stack := .call { outer with made := answered ++ outer.made } :: rest } := by
  have backed := sound.backed
  have bare := sound.bare
  rw [top] at backed bare
  obtain ⟨under, -, -, inside⟩ := sound.top top
  obtain ⟨borrowed, follows⟩ := inside byHost
  have inner : Backed s (.call outer :: rest) := by
    cases backed
    assumption
  have innerBare : Barely (.call outer :: rest) := by
    cases bare
    assumption
  refine @Sound.more s sound outer rest answered s.stack ?_ sound.borrowed ?_ inner innerBare ?_ ?_
  · intro other member
    rw [top]
    exact List.mem_cons_of_mem _ (List.mem_cons_of_mem _ member)
  · rw [top]
    simp
  · intro address member
    obtain ⟨t, ⟨other, member', same⟩, beneath⟩ := under address (Or.inr (among member))
    rcases List.mem_cons.mp member' with here | further
    · cases here
      rw [borrowed] at same
      cases same
    · exact ⟨t, ⟨other, further, same⟩, beneath⟩
  · exact fun outerBare kept member => (follows outer rest rfl outerBare).made kept (among member)

/-- What is laid out for a thing is laid out past every room there is, and holds its own addresses
    and those of the capabilities of what it requires. -/
lemma layoutOf_rooms (s : State) (runtime : ℕ) (thing : Thing) {address : ℕ}
    (among : address ∈ (s.layoutOf runtime thing).1.rooms) :
    s.next ≤ address ∧ address < s.next + 2 ∧
      ∃ laid, (s.layoutOf runtime thing).2[address - s.next]? = some laid ∧
        ∀ held ∈ laid.holds, held ∈ (s.layoutOf runtime thing).1.rooms ∨
          ∃ required, some required ∈ thing.requires ∧
            s.capabilityOf runtime required = some held := by
  obtain ⟨kind, requires, laid⟩ := thing
  cases kind with
  | implemented =>
    simp only [State.layoutOf, Layout.rooms, Option.toList_none, Option.toList_some,
      List.nil_append, List.singleton_append, List.mem_cons, List.not_mem_nil, or_false] at among ⊢
    rcases among with rfl | rfl
    · refine ⟨by omega, by omega, .capability (some s.next), by simp, ?_⟩
      simp [Room.holds]
    · exact ⟨by omega, by omega, .hosted, by simp, by simp [Room.holds]⟩
  | bound binds =>
    simp only [State.layoutOf, Layout.rooms, Option.toList_none, List.append_nil,
      List.mem_append] at among ⊢
    by_cases none : requires = []
    · simp only [if_pos none, Option.toList_none, List.not_mem_nil, false_or] at among ⊢
      cases binds with
      | false => simp at among
      | true =>
        simp only [if_pos, Option.toList_some, List.mem_singleton] at among
        subst among
        exact ⟨by omega, by omega, .capability Option.none, by simp, by simp [Room.holds]⟩
    · simp only [if_neg none, Option.toList_some, List.mem_singleton] at among ⊢
      rcases among with rfl | last
      · refine ⟨le_rfl, by omega, _, by rw [Nat.sub_self]; rfl, ?_⟩
        intro held member
        simp only [Room.holds, List.mem_filterMap, List.mem_map, id_eq] at member
        obtain ⟨_, ⟨required, among, rfl⟩, handed⟩ := member
        right
        cases required with
        | none => cases handed
        | some required => exact ⟨required, among, handed⟩
      · cases binds with
        | false => simp at last
        | true =>
          simp only [if_pos, Option.toList_some, List.mem_singleton] at last
          subst last
          exact ⟨by omega, by omega, .capability (some s.next), by simp, by simp [Room.holds]⟩

lemma capabilityOf_rooms {runtime required : ℕ} {address : ℕ}
    (handed : s.capabilityOf runtime required = some address) :
    ∃ thing, s.things required = some thing ∧ address ∈ thing.rooms := by
  unfold State.capabilityOf at handed
  cases there : s.things required with
  | none =>
    rw [there] at handed
    cases handed
  | some thing =>
    rw [there] at handed
    obtain ⟨layout, laid, capability⟩ := Option.bind_eq_some_iff.mp handed
    refine ⟨thing, rfl, mem_rooms_of_lookup laid ?_⟩
    simp [Layout.rooms, capability]

lemma Sound.layOut (sound : Sound s) (t runtime : ℕ) {thing : Thing}
    (held : s.things t = some thing) : Sound (s.layOut t runtime thing) := by
  have newThing : (s.layOut t runtime thing).things t =
      some { thing with laid := (runtime, (s.layoutOf runtime thing).1) :: thing.laid } :=
    if_pos rfl
  have other_things : ∀ other, other ≠ t →
      (s.layOut t runtime thing).things other = s.things other := fun other apart => if_neg apart
  have old_room : ∀ address, address < s.next →
      (s.layOut t runtime thing).room address = s.room address := fun address below => if_pos below
  have new_room : ∀ address ∈ (s.layoutOf runtime thing).1.rooms,
      (s.layOut t runtime thing).room address =
        (s.layoutOf runtime thing).2[address - s.next]? := by
    intro address among
    have above := (layoutOf_rooms s runtime thing among).1
    exact (if_neg (by omega)).trans (if_pos among)
  have further : (s.layOut t runtime thing).next = s.next + 2 := rfl
  have stay : ∀ other standing, s.things other = some standing → ∃ standing',
      (s.layOut t runtime thing).things other = some standing' ∧
        standing'.requires = standing.requires ∧ ∀ a ∈ standing.rooms, a ∈ standing'.rooms := by
    intro other standing there
    by_cases same : other = t
    · subst same
      rw [held] at there
      cases there
      refine ⟨_, newThing, rfl, fun a among => ?_⟩
      simp only [Thing.rooms, List.flatMap_cons, List.mem_append]
      exact Or.inr among
    · exact ⟨standing, (other_things other same).trans there, rfl, fun _ => id⟩
  have grown : ∀ other, s.things other ≠ none → (s.layOut t runtime thing).things other ≠ none := by
    intro other some
    obtain ⟨standing, there⟩ := Option.ne_none_iff_exists'.mp some
    obtain ⟨standing', there', -⟩ := stay other standing there
    rw [there']
    exact Option.some_ne_none _
  -- A thing of the new state is one of the old, and what it gained is past every room there was.
  have before : ∀ other standing', (s.layOut t runtime thing).things other = some standing' →
      ∃ standing, s.things other = some standing ∧ standing'.requires = standing.requires ∧
        ∀ a ∈ standing'.rooms, a ∈ standing.rooms ∨
          (other = t ∧ a ∈ (s.layoutOf runtime thing).1.rooms) := by
    intro other standing' there
    by_cases same : other = t
    · subst same
      rw [newThing] at there
      cases there
      refine ⟨thing, held, rfl, fun a among => ?_⟩
      simp only [Thing.rooms, List.flatMap_cons, List.mem_append] at among
      rcases among with new | old
      · exact Or.inr ⟨rfl, new⟩
      · exact Or.inl old
    · rw [other_things other same] at there
      exact ⟨standing', there, rfl, fun _ => Or.inl⟩
  have requires : ∀ a b, Requires (s.layOut t runtime thing) a b ↔ Requires s a b := by
    intro a b
    constructor
    · rintro ⟨standing', there, among⟩
      obtain ⟨standing, there', same, -⟩ := before a standing' there
      exact ⟨standing, there', same ▸ among⟩
    · rintro ⟨standing, there, among⟩
      obtain ⟨standing', there', same, -⟩ := stay a standing there
      exact ⟨standing', there', same ▸ among⟩
  refine ⟨?_, ?_, ?_, ?_, ?_, ?_, ?_, sound.bare, sound.functions⟩
  · intro other standing' there
    obtain ⟨standing, there', -⟩ := before other standing' there
    exact sound.below other standing there'
  · intro other standing' there address among
    obtain ⟨standing, there', -, rooms⟩ := before other standing' there
    rcases rooms address among with old | ⟨-, new⟩
    · obtain ⟨below, live⟩ := sound.there other standing there' address old
      rw [old_room address below, further]
      exact ⟨by omega, live⟩
    · obtain ⟨-, below, laid, at', -⟩ := layoutOf_rooms s runtime thing new
      rw [new_room address new, at', further]
      exact ⟨below, Option.some_ne_none _⟩
  · intro a first b second there there' address among among'
    obtain ⟨first', was, -, rooms⟩ := before a first there
    obtain ⟨second', was', -, rooms'⟩ := before b second there'
    have fresh : ∀ other standing, s.things other = some standing → address ∈ standing.rooms →
        address ∉ (s.layoutOf runtime thing).1.rooms := by
      intro other standing there old new
      have below := (sound.there other standing there address old).1
      have above := (layoutOf_rooms s runtime thing new).1
      omega
    rcases rooms address among with old | ⟨rfl, new⟩
    · rcases rooms' address among' with old' | ⟨-, new'⟩
      · exact sound.apart a first' b second' was was' address old old'
      · exact absurd new' (fresh a first' was old)
    · rcases rooms' address among' with old' | ⟨rfl, -⟩
      · exact absurd new (fresh b second' was' old')
      · rfl
  · exact fun a b step => grown b (sound.required a b ((requires a b).mp step))
  · intro a standing' there address among inside holds
    obtain ⟨standing, was, same, rooms⟩ := before a standing' there
    rcases rooms address among with old | ⟨rfl, new⟩
    · have below := (sound.there a standing was address old).1
      have holds' : Holds s.room address inside := by
        obtain ⟨laid, at', member⟩ := holds
        exact ⟨laid, (old_room address below).symm.trans at', member⟩
      obtain ⟨other, owner, which, owns, inRooms⟩ :=
        sound.edges a standing was address old inside holds'
      obtain ⟨owner', owns', -, more⟩ := stay other owner owns
      exact ⟨other, owner', which.imp id (requires a other).mpr, owns', more inside inRooms⟩
    · obtain ⟨laid, at', member⟩ := holds
      obtain ⟨-, -, laid', at'', own⟩ := layoutOf_rooms s runtime thing new
      rw [new_room address new, at''] at at'
      cases at'
      rcases own inside member with here | ⟨required, among', handed⟩
      · refine ⟨a, _, Or.inl rfl, newThing, ?_⟩
        simp only [Thing.rooms, List.flatMap_cons, List.mem_append]
        exact Or.inl here
      · obtain ⟨owner, owns, inRooms⟩ := capabilityOf_rooms handed
        obtain ⟨owner', owns', -, more⟩ := stay required owner owns
        refine ⟨required, owner', Or.inr ((requires a required).mpr ⟨thing, held, among'⟩), owns',
          more inside inRooms⟩
  · exact fun call member b borrowed => grown b (sound.borrowed call member b borrowed)
  · exact sound.backed.mono fun _ _ _ under => under.mono stay

/-- A thing let go of takes nothing with it that is still read: no call of it is open, and what any
    other thing holds on to is not it. -/
lemma Sound.drop (sound : Sound s) {t : ℕ} {thing : Thing} (held : s.things t = some thing)
    (unrequired : ∀ other standing, s.things other = some standing → some t ∉ standing.requires)
    (unborrowed : ∀ call, Frame.call call ∈ s.stack → call.borrowed ≠ some t) :
    Sound (s.drop t thing) := by
  have kept : ∀ other standing, (s.drop t thing).things other = some standing ↔
      other ≠ t ∧ s.things other = some standing := by
    intro other standing
    unfold State.drop
    dsimp only
    by_cases same : other = t
    · simp [same]
    · simp [same]
  have rooms : ∀ other standing, other ≠ t → s.things other = some standing →
      ∀ address ∈ standing.rooms, (s.drop t thing).room address = s.room address := by
    intro other standing apart there address among
    refine if_neg fun also => apart ?_
    exact (sound.apart t thing other standing held there address also among).symm
  have holds : ∀ address inside, Holds (s.drop t thing).room address inside →
      Holds s.room address inside := by
    rintro address inside ⟨laid, there, among⟩
    refine ⟨laid, ?_, among⟩
    unfold State.drop at there
    dsimp only at there
    split at there
    · cases there
    · exact there
  have requires : ∀ a b, Requires (s.drop t thing) a b ↔ a ≠ t ∧ Requires s a b := by
    intro a b
    constructor
    · rintro ⟨standing, there, among⟩
      obtain ⟨apart, before⟩ := (kept a standing).mp there
      exact ⟨apart, standing, before, among⟩
    · rintro ⟨apart, standing, before, among⟩
      exact ⟨standing, (kept a standing).mpr ⟨apart, before⟩, among⟩
  have notRequired : ∀ a b, Requires s a b → b ≠ t := by
    rintro a b ⟨standing, there, among⟩ rfl
    exact unrequired a standing there among
  have under : ∀ b address, Borrows s.stack b → Under s b address →
      Under (s.drop t thing) b address := by
    rintro b address ⟨call, member, borrowed⟩ ⟨other, standing, path, there, among⟩
    have first : b ≠ t := by
      rintro rfl
      exact unborrowed call member borrowed
    have along : other ≠ t ∧ Relation.ReflTransGen (Requires (s.drop t thing)) b other := by
      clear there
      induction path with
      | refl => exact ⟨first, .refl⟩
      | tail _ step ih =>
        exact ⟨notRequired _ _ step, ih.2.tail ((requires _ _).mpr ⟨ih.1, step⟩)⟩
    exact ⟨other, standing, along.2, (kept other standing).mpr ⟨along.1, there⟩, among⟩
  refine ⟨?_, ?_, ?_, ?_, ?_, ?_, sound.backed.mono under, sound.bare, sound.functions⟩
  · exact fun other standing there => sound.below other standing ((kept _ _).mp there).2
  · intro other standing there address among
    obtain ⟨apart, before⟩ := (kept _ _).mp there
    rw [rooms other standing apart before address among]
    exact sound.there other standing before address among
  · intro a first b second there there' address among among'
    exact sound.apart a first b second ((kept _ _).mp there).2 ((kept _ _).mp there').2 address among
      among'
  · intro a b step
    obtain ⟨-, before⟩ := (requires a b).mp step
    obtain ⟨standing, there⟩ := Option.ne_none_iff_exists'.mp (sound.required a b before)
    rw [(kept b standing).mpr ⟨notRequired a b before, there⟩]
    exact Option.some_ne_none _
  · intro a standing there address among inside holding
    obtain ⟨apart, before⟩ := (kept _ _).mp there
    obtain ⟨other, owner, which, owns, inRooms⟩ :=
      sound.edges a standing before address among inside (holds address inside holding)
    have apart' : other ≠ t := by
      rcases which with rfl | step
      · exact apart
      · exact notRequired a other step
    exact ⟨other, owner, which.imp id fun step => (requires a other).mpr ⟨apart, step⟩,
      (kept other owner).mpr ⟨apart', owns⟩, inRooms⟩
  · intro call member b borrowed
    obtain ⟨standing, there⟩ := Option.ne_none_iff_exists'.mp (sound.borrowed call member b borrowed)
    have apart : b ≠ t := by
      rintro rfl
      exact unborrowed call member borrowed
    rw [(kept b standing).mpr ⟨apart, there⟩]
    exact Option.some_ne_none _

lemma sound_start : Sound .start := by
  refine ⟨?_, ?_, ?_, ?_, ?_, ?_, .nil, .nil, ?_⟩ <;> simp [State.start, Requires]

lemma Sound.step {s' : State} {act : Act} (sound : Sound s) (steps : Step act s s') : Sound s' := by
  cases steps with
  | hold kind requires there => exact sound.hold kind there
  | layOut t runtime held new => exact sound.layOut t runtime held
  | openRun runtime => exact sound.openRun runtime
  | closeRun top => exact @Sound.pop _ sound _ _ top [] (by simp)
  | call t inputs output inside held laid among takesNone =>
    exact sound.call t inputs output held laid takesNone
  | readValue answers inside => exact sound.pushBare rfl rfl ⟨rfl, by simp⟩
  | callFunction takes answers handed inside among takesNone =>
    exact sound.pushBare rfl rfl ⟨sound.functions _ handed, sound.given among⟩
  | make top keeps => exact sound.make top keeps
  | reach inputs output top through among hosts takesNone =>
    obtain ⟨rfl, rfl⟩ := takesNone (takesFunction_behavior inputs output)
    refine sound.pushInside top rfl rfl hosts ?_ ?_
    · rintro address (environment | made)
      · obtain ⟨own, handed, reaches⟩ := through address environment
        obtain ⟨t, borrows, under⟩ := (sound.top top).1 own (Or.inl handed)
        exact ⟨t, top ▸ borrows, sound.under_reaches under reaches⟩
      · cases made
    · rintro ⟨bare, -⟩
      refine ⟨Option.eq_none_iff_forall_not_mem.mpr fun address environment => ?_, by simp⟩
      obtain ⟨own, handed, -⟩ := through address environment
      rw [bare] at handed
      cases handed
  | apply takes answers top made among hosts =>
    refine sound.pushInside top rfl rfl hosts ?_ ?_
    · rintro address (environment | given)
      · obtain ⟨t, borrows, under⟩ := (sound.top top).1 address (Or.inr (environment ▸ made))
        exact ⟨t, top ▸ borrows, under⟩
      · obtain ⟨t, borrows, under⟩ := (sound.top top).1 address (Or.inr (among given))
        exact ⟨t, top ▸ borrows, under⟩
    · exact fun bare => ⟨bare.made _ made, fun kept member => bare.made kept (among member)⟩
  | hand top hosted among =>
    refine ⟨sound.below, sound.there, sound.apart, sound.required, sound.edges, sound.borrowed,
      sound.backed.mono fun _ _ _ => id, sound.bare, ?_⟩
    intro function member
    rcases List.mem_append.mp member with new | old
    · obtain ⟨kept, handed, rfl⟩ := List.mem_map.mp new
      exact ((sound.top top).2.1 hosted).made kept (among handed)
    · exact sound.functions function old
  | @leaveToHost _ call answered rest top byHost among answersNone =>
    refine sound.pop top ?_
    intro function member
    obtain ⟨kept, handed, rfl⟩ := List.mem_map.mp member
    cases hcallee : call.callee with
    | behavior inputs output =>
      rw [answersNone (hcallee ▸ answersFunction_behavior inputs output)] at handed
      cases handed
    | value answers =>
      exact ((sound.top top).2.2.1 byHost (hcallee ▸ rfl)).made kept (among handed)
    | function takes answers =>
      exact ((sound.top top).2.2.1 byHost (hcallee ▸ rfl)).made kept (among handed)
  | leave top byHost among answersNone => exact sound.leave top byHost among
  | drop held unrequired unborrowed => exact sound.drop held unrequired unborrowed

end

/-- Whatever a program binds, calls, opens, closes and lets go of, in any order, nothing a function
    value reads is gone while it can be called. -/
theorem nothing_gone {s : State} (reached : Reached s) : NothingGone s := by
  have sound : Sound s := by
    induction reached with
    | start => exact sound_start
    | step _ steps ih => exact ih.step steps
  exact sound.nothingGone

def laidOut : State :=
  ((((State.start.hold .implemented []).layOut 0 7 ⟨.implemented, [], []⟩).hold
    (.bound true) [some 0]).layOut 1 7 ⟨.bound true, [some 0], []⟩)

def theCall (made : List (Option ℕ)) : Call :=
  ⟨0, .behavior [] (.scalar .int), some 2, some 1, true, false, made⟩

/-- The behavior called in a run, and in it a function called that was made there and keeps what the
    call was handed. -/
def inCall : State :=
  { laidOut with
    runs := 1
    stack := [.call ⟨0, .function [] (.prim .int), some 2, none, false, false, []⟩,
      .call (theCall [some 2]), .run 0 7] }

lemma inCall_reached : Reached inCall := by
  have first := Reached.step .start (.hold .implemented [] (by simp))
  have second := Reached.step first
    (.layOut 0 7 (show _ = some ⟨.implemented, [], []⟩ from rfl) rfl)
  have third := Reached.step second (.hold (.bound true) [some 0] (by
    intro required among
    cases List.mem_singleton.mp among
    exact Option.some_ne_none _))
  have fourth : Reached laidOut := .step third
    (.layOut 1 7 (by simp [State.hold, State.layOut, State.start]) rfl)
  have opened : Reached { laidOut with runs := 1, stack := [.run 0 7] } :=
    .step fourth (.openRun 7)
  have called : Reached { laidOut with runs := 1, stack := [.call (theCall []), .run 0 7] } :=
    .step opened (@Step.call _ 1 0 7 _ ⟨some 2, some 3, none⟩ false [] [] (.scalar .int) rfl rfl rfl
      (by simp) fun _ => ⟨rfl, rfl⟩)
  have made : Reached { laidOut with
      runs := 1, stack := [.call (theCall [some 2]), .run 0 7] } :=
    .step called (@Step.make _ (theCall []) (some 2) _ rfl (.inr rfl))
  exact .step made (@Step.apply _ (theCall [some 2]) (some 2) _ false [] [] (.prim .int) rfl
    List.mem_cons_self (by simp) (by simp))

/-- A function called in the call it was made in reads what that call was handed. -/
theorem nothing_gone_inCall : Kept inCall 2 ∧ NothingGone inCall :=
  have gone := nothing_gone inCall_reached
  ⟨gone.calls _ List.mem_cons_self 2 rfl, gone⟩

end SoutherNative.Lifetimes
