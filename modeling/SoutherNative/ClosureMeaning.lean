import Mathlib
import SoutherNative.Closures

set_option autoImplicit false

/-!
# What a body with function values answers

A function value is held with every binding in force where it was made, or with what its plan says
it carries and nothing more. A program answers the same either way.
-/
namespace SoutherNative.Closures
open Transport Nodes

inductive Process (V E A : Type)
  | answers (result : Except E A)
  | applies (function : V) (given : List V) (next : V → Process V E A)
  | calls (body : ℕ) (handed given : List V) (next : V → Process V E A)

/-- How a language reads its values, and what each node that only works over values does. -/
structure Language (V E : Type) where
  function : ℕ → V
  address : V → Option ℕ
  isTrue : V → Bool
  truth : Bool → V
  selected : Selects → V → Bool
  payload : V → V
  decided : String → List V → Process V E (V ⊕ ℕ)
  elements : V → List V
  index : V → ℕ
  empty : Core → V
  answers : Core → Ty → List Ty → Option V → List V → Process V E V

def Process.map {V E A B : Type} (f : A → B) : Process V E A → Process V E B
  | .answers result => .answers (result.map f)
  | .applies function given next => .applies function given fun value => (next value).map f
  | .calls body handed given next => .calls body handed given fun value => (next value).map f

variable {V E : Type} (language : Language V E)

def givenOf (core : Core) (children : ℕ) : ℕ :=
  match core with
  | .letIn _ _ | .ifElse | .matchOn _ => 1
  | .binary .and .asTheyStand _ | .binary .or .asTheyStand _ => 1
  | .attempt _ values _ _ => values
  | _ => children

def armTaken (value : V) : ℕ → List Arm → Option (ℕ × V)
  | _, [] => none
  | place, arm :: rest =>
    if arm.selects.any fun selects => language.selected selects value then
      some (place + 1, match arm.binding with
        | some (.payload _ _) => language.payload value
        | _ => value)
    else armTaken value (place + 1) rest

def finish (core : Core) (ty : Ty) (types : List Ty) (capability : Option V) (values : List V) :
    Option (Process V E (V ⊕ (ℕ × List V))) :=
  match core, values with
  | .letIn _ _, [value] => some (.answers (.ok (.inr (1, [value]))))
  | .ifElse, [asked] => some (.answers (.ok (.inr (if language.isTrue asked then 1 else 2, []))))
  | .binary .and .asTheyStand _, [asked] => some (.answers (.ok
      (if language.isTrue asked then .inr (1, []) else .inl (language.truth false))))
  | .binary .or .asTheyStand _, [asked] => some (.answers (.ok
      (if language.isTrue asked then .inl (language.truth true) else .inr (1, []))))
  | .matchOn arms, [value] => (armTaken language value 0 arms).map fun taken =>
      .answers (.ok (.inr (taken.1, [taken.2])))
  | .attempt declared count _ _, given =>
    some ((language.decided declared given).map fun
      | .inl value => .inr (count, [value])
      | .inr departure => .inr (count + 1 + departure, []))
  | .apply, function :: given => some (.applies function given fun value => .answers (.ok (.inl value)))
  | .letIn _ _, _ | .ifElse, _ | .matchOn _, _ | .apply, _ => none
  | .binary .and .asTheyStand _, _ | .binary .or .asTheyStand _, _ => none
  | core, values => some ((language.answers core ty types capability values).map .inl)

structure Handed (V : Type) where
  requires : List String
  values : List V

/-- What the bindings in force hold, and what the body was handed. -/
structure Frame (V : Type) where
  held : ℕ → Option V
  handed : Option (Handed V)

def Frame.bind (frame : Frame V) (binding : ℕ) (value : V) : Frame V :=
  { frame with held := Function.update frame.held binding (some value) }

def Frame.bindAll (frame : Frame V) : List ℕ → List V → Frame V
  | binding :: bindings, value :: values => (frame.bind binding value).bindAll bindings values
  | _, _ => frame

def Frame.capability (frame : Frame V) : Core → Option V
  | .call (.behavior declared) =>
    frame.handed.bind fun handed => (handed.requires.zip handed.values).lookup declared
  | _ => none

abbrev Answer (E S A : Type) := Option (Except E (A × S))

def andThen {E S A B : Type} (answer : Answer E S A) (next : A → S → Answer E S B) : Answer E S B :=
  match answer with
  | none => none
  | some (.error status) => some (.error status)
  | some (.ok (value, store)) => next value store

inductive Callee (V : Type)
  | function (value : V)
  | body (number : ℕ) (handed : List V)

/-- How a function value is held: how one is made where a block stands, and what there is to run when
    it is applied. -/
structure Representation (V Cell : Type) where
  make : List ℕ → List ℕ → List Node → Frame V → Option Cell
  enter : Cell → Option (List ℕ × List ℕ × List Node × Frame V)

/-- The functions made so far, `none` for one that nothing calls. -/
abbrev Store (Cell : Type) := List (Option Cell)

section Eval

variable {Cell : Type} (representation : Representation V Cell)
  (calls : Callee V → List V → Store Cell → Answer E (Store Cell) V)

def run {A : Type} : Process V E A → Store Cell → Answer E (Store Cell) A
  | .answers result, store => some (result.map fun value => (value, store))
  | .applies function given next, store =>
    andThen (calls (.function function) given store) fun value => run (next value)
  | .calls body handed given next, store =>
    andThen (calls (.body body handed) given store) fun value => run (next value)

def made (cell : Option Cell) (store : Store Cell) : Answer E (Store Cell) V :=
  some (.ok (language.function store.length, store ++ [cell]))

def loop (step : V → V → Store Cell → Answer E (Store Cell) V) :
    List V → V → Store Cell → Answer E (Store Cell) V
  | [], grown, store => some (.ok (grown, store))
  | element :: rest, grown, store => andThen (step grown element store) (loop step rest)

def walked (given : List V) : Option (List V) :=
  match given with
  | [list, index] => some ((language.elements list).drop (language.index index))
  | _ => none

def goOn (child : ℕ → List V → Store Cell → Answer E (Store Cell) V) :
    V ⊕ (ℕ × List V) → Store Cell → Answer E (Store Cell) V
  | .inl value, store => some (.ok (value, store))
  | .inr (target, bound), store => child target bound store

mutual

def eval (place : List ℕ) : Node → Frame V → Store Cell → Answer E (Store Cell) V
  | .node core ty children, frame, store => match core with
    | .read binding => (frame.held binding).map fun value => .ok (value, store)
    | .block _ parameters =>
      if neverRuns ty then made language none store
      else if isFunction false core ty then
        (representation.make place parameters children frame).bind fun cell =>
          made language (some cell) store
      else none
    | _ =>
      let unrun := neverLowered core ty children
      if stepAt false core ty children 0 then match children with
        | [] => none
        | step :: rest => evalStep (place ++ [0]) (language.empty core)
            (fun frame => evalGiven place unrun (rest.length + 1) 1 rest frame) step frame store
      else
        andThen (evalGiven place unrun (givenOf core children.length) 0 children frame store)
          fun values store =>
        (finish language core ty (children.map Node.ty) (frame.capability core) values).bind
          fun process => andThen (run calls process store) (goOn fun child bound =>
            evalAt place unrun child (boundAt core child) bound 0 children frame)

def evalGiven (place unrun : List ℕ) (count : ℕ) :
    ℕ → List Node → Frame V → Store Cell → Answer E (Store Cell) (List V)
  | _, [], _, store => some (.ok ([], store))
  | child, node :: rest, frame, store =>
    if child < count then
      andThen (if child ∈ unrun then made language none store
          else eval (place ++ [child]) node frame store) fun value store =>
        andThen (evalGiven place unrun count (child + 1) rest frame store) fun values store =>
          some (.ok (value :: values, store))
    else some (.ok ([], store))

def evalAt (place unrun : List ℕ) (target : ℕ) (bindings : List ℕ) (bound : List V) :
    ℕ → List Node → Frame V → Store Cell → Answer E (Store Cell) V
  | _, [], _, _ => none
  | child, node :: rest, frame, store =>
    if child = target then
      if child ∉ unrun ∧ bindings.length ≤ bound.length then
        eval (place ++ [child]) node (frame.bindAll bindings bound) store
      else none
    else evalAt place unrun target bindings bound (child + 1) rest frame store

def evalStep (place : List ℕ) (empty : V)
    (given : Frame V → Store Cell → Answer E (Store Cell) (List V)) :
    Node → Frame V → Store Cell → Answer E (Store Cell) V
  | .node core _ children, frame, store => match core, children with
    | .letIn binding _, [value, body] =>
      andThen (eval (place ++ [0]) value frame store) fun held store =>
        evalStep (place ++ [1]) empty given body (frame.bind binding held) store
    | .block _ parameters, [body] => andThen (given frame store) fun values store =>
        if parameters.length ≤ 2 then (walked language values).bind fun elements =>
          loop (fun grown element => eval (place ++ [0]) body
            (frame.bindAll parameters [grown, element])) elements empty store
        else none
    | _, _ => none

end

end Eval

structure Whole (V : Type) where
  place : List ℕ
  parameters : List ℕ
  body : List Node
  frame : Frame V

def whole : Representation V (Whole V) where
  make place parameters body frame := some ⟨place, parameters, body, frame⟩
  enter cell := some (cell.place, cell.parameters, cell.body, cell.frame)

structure Carried (V : Type) where
  id : ℕ
  captured : List V
  environment : Option (Handed V)

def restored (captures : List Capture) (captured : List V) (environment : Option (Handed V)) :
    Frame V :=
  ⟨((captures.map Capture.binding).zip captured).foldr
    (fun entry held => Function.update held entry.1 (some entry.2)) (fun _ => none), environment⟩

def carrying (found : ClosureSites) : Representation V (Carried V) where
  make place _ _ frame := (found.at place).bind fun entry =>
    (entry.2.captures.mapM fun capture => frame.held capture.binding).bind fun captured =>
      match entry.2.environment with
      | none => some ⟨entry.1, captured, none⟩
      | some _ => frame.handed.map fun handed => ⟨entry.1, captured, some handed⟩
  enter cell := found.sites[cell.id]?.map fun entry =>
    (entry.1, entry.2.parameters, entry.2.body,
      restored entry.2.captures cell.captured cell.environment)

/-- A body, and what it is handed its arguments under. -/
structure Body where
  parameters : List ℕ
  standing : Standing

section Programs

variable {Cell : Type} (representation : Representation V Cell) (bodies : List Body)

def applied (calls : Callee V → List V → Store Cell → Answer E (Store Cell) V) (cell : Cell)
    (given : List V) (store : Store Cell) : Answer E (Store Cell) V :=
  (representation.enter cell).bind fun entered => match entered with
    | (place, parameters, [body], frame) =>
      if parameters.length = given.length then
        eval language representation calls (place ++ [0]) body (frame.bindAll parameters given) store
      else none
    | _ => none

def callsAt : ℕ → Callee V → List V → Store Cell → Answer E (Store Cell) V
  | 0, _, _, _ => none
  | depth + 1, .function function, given, store =>
    ((language.address function).bind fun address => (store[address]?).join).bind fun cell =>
      applied language representation (callsAt depth) cell given store
  | depth + 1, .body number handed, given, store => bodies[number]?.bind fun body =>
      if body.parameters.length = given.length then
        eval language representation (callsAt depth) [number] body.standing.node
          (Frame.bindAll ⟨fun _ => none, some ⟨body.standing.environment, handed⟩⟩ body.parameters
            given) store
      else none

end Programs

theorem bindAll_handed (frame : Frame V) (bindings : List ℕ) (values : List V) :
    (frame.bindAll bindings values).handed = frame.handed := by
  induction bindings generalizing frame values with
  | nil => cases values <;> rfl
  | cons binding rest ih =>
    cases values with
    | nil => rfl
    | cons value values => exact ih (frame.bind binding value) values

theorem bindAll_other {binding : ℕ} {bindings : List ℕ} (h : binding ∉ bindings) (frame : Frame V)
    (values : List V) : (frame.bindAll bindings values).held binding = frame.held binding := by
  induction bindings generalizing frame values with
  | nil => cases values <;> rfl
  | cons first rest ih =>
    cases values with
    | nil => rfl
    | cons value values =>
      rw [List.mem_cons, not_or] at h
      exact (ih h.2 (frame.bind first value) values).trans (Function.update_of_ne h.1 _ _)

theorem bindAll_bound {binding : ℕ} {bindings : List ℕ} {values : List V} (h : binding ∈ bindings)
    (hlength : bindings.length ≤ values.length) :
    ∃ value, ∀ frame : Frame V, (frame.bindAll bindings values).held binding = some value := by
  induction bindings generalizing values with
  | nil => cases h
  | cons first rest ih =>
    cases values with
    | nil => cases hlength
    | cons value values =>
      by_cases hrest : binding ∈ rest
      · obtain ⟨found, hfound⟩ := ih hrest (Nat.le_of_succ_le_succ hlength)
        exact ⟨found, fun frame => hfound (frame.bind first value)⟩
      · have heq : binding = first := (List.mem_cons.mp h).resolve_right hrest
        subst heq
        exact ⟨value, fun frame => (bindAll_other hrest (frame.bind binding value) values).trans
          (Function.update_self _ _ _)⟩

/-- Two frames hold the same for every read, and the second has what the body was handed wherever
    something is called through it. -/
structure AgreeOn (planner : Planner) (reads : List Capture) (calls : Bool) (frame other : Frame V) :
    Prop where
  held : ∀ read ∈ reads, ∃ value, frame.held read.binding = some value ∧
    other.held read.binding = some value
  handed : ∃ values, frame.handed = some ⟨planner.environment, values⟩
  less : other.handed = none ∨ other.handed = frame.handed
  calls : calls = true → other.handed = frame.handed

section Agreeing

variable {planner : Planner} {reads more : List Capture} {calls also : Bool} {frame other : Frame V}

theorem AgreeOn.left (h : AgreeOn planner (reads ++ more) (calls || also) frame other) :
    AgreeOn planner reads calls frame other where
  held read hread := h.held read (List.mem_append_left more hread)
  handed := h.handed
  less := h.less
  calls hcalls := h.calls (by rw [hcalls, Bool.true_or])

theorem AgreeOn.right (h : AgreeOn planner (reads ++ more) (calls || also) frame other) :
    AgreeOn planner more also frame other where
  held read hread := h.held read (List.mem_append_right reads hread)
  handed := h.handed
  less := h.less
  calls hcalls := h.calls (by rw [hcalls, Bool.or_true])

theorem AgreeOn.bindAll {bindings : List ℕ} {values : List V}
    (h : AgreeOn planner (without bindings reads) calls frame other)
    (hlength : bindings.length ≤ values.length) :
    AgreeOn planner reads calls (frame.bindAll bindings values) (other.bindAll bindings values) where
  held read hread := by
    by_cases hbound : read.binding ∈ bindings
    · obtain ⟨value, hvalue⟩ := bindAll_bound hbound hlength
      exact ⟨value, hvalue frame, hvalue other⟩
    · rw [bindAll_other hbound, bindAll_other hbound]
      exact h.held read (List.mem_filter.mpr ⟨hread, by simpa using hbound⟩)
  handed := by
    rw [bindAll_handed]
    exact h.handed
  less := by
    rw [bindAll_handed, bindAll_handed]
    exact h.less
  calls hcalls := by
    rw [bindAll_handed, bindAll_handed]
    exact h.calls hcalls

/-- Frames that agree on more reads than are made agree on the ones that are, whatever else either
    binds. -/
theorem AgreeOn.widen {bindings : List ℕ} {values : List V}
    (h : AgreeOn planner reads calls frame other) (hlength : bindings.length ≤ values.length) :
    AgreeOn planner reads calls (frame.bindAll bindings values)
      (other.bindAll bindings values) :=
  AgreeOn.bindAll ⟨fun read hread => h.held read (List.mem_of_mem_filter hread), h.handed, h.less,
    h.calls⟩ hlength

/-- A call through a capability finds the same one in both. -/
theorem AgreeOn.capability {core : Core} (h : AgreeOn planner reads (planner.handed core || also)
    frame other) : frame.capability core = other.capability core := by
  obtain ⟨values, hhanded⟩ := h.handed
  cases core with
  | call reaches =>
    cases reaches with
    | behavior declared =>
      rcases h.less with hnone | hsame
      · by_cases hcalls : declared ∈ planner.environment
        · have hsame := h.calls (by simp [Planner.handed, hcalls])
          rw [Frame.capability, Frame.capability, hsame]
        · have hmissing : (planner.environment.zip values).lookup declared = none := by
            rw [List.lookup_eq_none_iff]
            intro entry hentry
            have hne : declared ≠ entry.1 := by
              rintro rfl
              exact hcalls (List.of_mem_zip hentry).1
            simpa using hne
          rw [Frame.capability, Frame.capability, hhanded, hnone]
          exact hmissing
      · rw [Frame.capability, Frame.capability, hsame]
    | _ => rfl
  | _ => rfl

end Agreeing

theorem restored_held {captures : List Capture} {captured : List V} {frame : Frame V}
    {environment : Option (Handed V)}
    (h : captures.mapM (fun capture => frame.held capture.binding) = some captured)
    {capture : Capture} (hmem : capture ∈ captures) :
    (restored captures captured environment).held capture.binding =
      frame.held capture.binding := by
  induction captures generalizing captured with
  | nil => cases hmem
  | cons first rest ih =>
    rw [List.mapM_cons] at h
    obtain ⟨value, hvalue, h⟩ := Option.bind_eq_some_iff.mp h
    obtain ⟨values, hvalues, h⟩ := Option.bind_eq_some_iff.mp h
    cases h
    by_cases hfirst : capture.binding = first.binding
    · rw [hfirst, hvalue]
      exact Function.update_self _ _ _
    · have hrest := (List.mem_cons.mp hmem).resolve_left fun heq => hfirst (heq ▸ rfl)
      rw [← ih hvalues hrest]
      exact Function.update_of_ne hfirst _ _

def Known (found : ClosureSites) (sites : List (List ℕ × Site)) : Prop :=
  ∀ entry ∈ sites, entry ∈ found.sites

theorem Known.left {found : ClosureSites} {sites others : List (List ℕ × Site)}
    (h : Known found (sites ++ others)) : Known found sites :=
  fun entry hentry => h entry (List.mem_append_left others hentry)

theorem Known.right {found : ClosureSites} {sites others : List (List ℕ × Site)}
    (h : Known found (sites ++ others)) : Known found others :=
  fun entry hentry => h entry (List.mem_append_right sites hentry)

structure Restores (found : ClosureSites) (whole : Whole V) (carried : Carried V) : Prop where
  entered : ∃ site, found.sites[carried.id]? = some (whole.place, site) ∧
    site.parameters = whole.parameters ∧ site.body = whole.body ∧
    ∀ body, whole.body = [body] → ∃ planner : Planner,
      Known found (sitesIn planner (whole.place ++ [0]) false body) ∧
      AgreeOn planner (without whole.parameters (reads false body)) (callsHanded planner false body)
        whole.frame (restored site.captures carried.captured carried.environment)

inductive CellsAlike (found : ClosureSites) : Option (Whole V) → Option (Carried V) → Prop
  | uncallable : CellsAlike found none none
  | callable {whole : Whole V} {carried : Carried V} (h : Restores found whole carried) :
    CellsAlike found (some whole) (some carried)

abbrev StoresAlike (found : ClosureSites) : Store (Whole V) → Store (Carried V) → Prop :=
  List.Forall₂ (CellsAlike found)

inductive Same (found : ClosureSites) {A : Type} :
    Answer E (Store (Whole V)) A → Answer E (Store (Carried V)) A → Prop
  | none : Same found none none
  | error (status : E) : Same found (some (.error status)) (some (.error status))
  | ok (value : A) {store : Store (Whole V)} {other : Store (Carried V)}
    (h : StoresAlike found store other) :
    Same found (some (.ok (value, store))) (some (.ok (value, other)))

section Alike

variable {found : ClosureSites} {A B : Type}

theorem andThen_same {answer : Answer E (Store (Whole V)) A} {other : Answer E (Store (Carried V)) A}
    {next : A → Store (Whole V) → Answer E (Store (Whole V)) B}
    {next' : A → Store (Carried V) → Answer E (Store (Carried V)) B} (h : Same found answer other)
    (hnext : ∀ value store other, StoresAlike found store other →
      Same found (next value store) (next' value other)) :
    Same found (andThen answer next) (andThen other next') := by
  cases h with
  | none => exact .none
  | error status => exact .error status
  | ok value hstores => exact hnext value _ _ hstores

theorem StoresAlike.made {store : Store (Whole V)} {other : Store (Carried V)}
    (h : StoresAlike found store other) {whole : Option (Whole V)} {carried : Option (Carried V)}
    (hcell : CellsAlike found whole carried) :
    Same (E := E) found (made language whole store) (made language carried other) := by
  rw [Closures.made, Closures.made, h.length_eq]
  exact .ok _ (List.rel_append h (.cons hcell .nil))

variable {calls : Callee V → List V → Store (Whole V) → Answer E (Store (Whole V)) V}
  {calls' : Callee V → List V → Store (Carried V) → Answer E (Store (Carried V)) V}

def CallsSame (found : ClosureSites)
    (calls : Callee V → List V → Store (Whole V) → Answer E (Store (Whole V)) V)
    (calls' : Callee V → List V → Store (Carried V) → Answer E (Store (Carried V)) V) : Prop :=
  ∀ callee given store other, StoresAlike found store other →
    Same found (calls callee given store) (calls' callee given other)

theorem run_same (hcalls : CallsSame found calls calls') (process : Process V E A)
    {store : Store (Whole V)} {other : Store (Carried V)} (h : StoresAlike found store other) :
    Same found (run calls process store) (run calls' process other) := by
  induction process generalizing store other with
  | answers result =>
    cases result with
    | error status => exact .error status
    | ok value => exact .ok value h
  | applies function given next ih =>
    exact andThen_same (hcalls _ given store other h) fun value _ _ hstores => ih value hstores
  | calls body handed given next ih =>
    exact andThen_same (hcalls _ given store other h) fun value _ _ hstores => ih value hstores

theorem loop_same {step : V → V → Store (Whole V) → Answer E (Store (Whole V)) V}
    {step' : V → V → Store (Carried V) → Answer E (Store (Carried V)) V}
    (hstep : ∀ grown element store other, StoresAlike found store other →
      Same found (step grown element store) (step' grown element other))
    (elements : List V) (grown : V) {store : Store (Whole V)} {other : Store (Carried V)}
    (h : StoresAlike found store other) :
    Same found (loop step elements grown store) (loop step' elements grown other) := by
  induction elements generalizing grown store other with
  | nil => exact .ok grown h
  | cons element rest ih =>
    exact andThen_same (hstep grown element store other h) fun value _ _ hstores => ih value hstores

end Alike

theorem boundAt_given {core : Core} {ty : Ty} {children : List Node}
    (hplain : Plain core) (hwalk : stepAt false core ty children 0 = false) {count child : ℕ}
    (h : child < givenOf core count) :
    boundAt core child = [] ∧ stepAt false core ty children child = false := by
  cases core with
  | block => cases hplain
  | letIn binding binds =>
    have hzero : child = 0 := Nat.lt_one_iff.mp h
    subst hzero
    exact ⟨rfl, rfl⟩
  | attempt declared values binding binds =>
    have hne : child ≠ values := Nat.ne_of_lt h
    exact ⟨if_neg hne, rfl⟩
  | matchOn arms =>
    have hzero : child = 0 := Nat.lt_one_iff.mp h
    subst hzero
    exact ⟨rfl, rfl⟩
  | call reaches =>
    refine ⟨rfl, ?_⟩
    cases child with
    | zero => exact hwalk
    | succ child => rfl
  | _ => exact ⟨rfl, rfl⟩

theorem stepAt_false {core : Core} {ty : Ty} {children : List Node}
    (hwalk : stepAt false core ty children 0 = false) (child : ℕ) :
    stepAt false core ty children child = false := by
  cases core with
  | call reaches =>
    cases child with
    | zero => exact hwalk
    | succ child => rfl
  | _ => rfl

theorem stepAt_true {core : Core} {ty : Ty} {children : List Node}
    (hwalk : stepAt false core ty children 0 = true) : (∃ reaches, core = .call reaches) ∧
      unrunAt false core ty children = [] ∧ neverLowered core ty children = [] := by
  cases core with
  | call reaches =>
    have hempty : (neverLowered (.call reaches) ty children).isEmpty = true :=
      (Bool.and_eq_true_iff.mp hwalk).2
    have hnone := List.isEmpty_iff.mp hempty
    exact ⟨⟨reaches, rfl⟩, hnone, hnone⟩
  | _ => cases hwalk

theorem unrunAt_plain {step : Bool} {core : Core} {ty : Ty} {children : List Node}
    (hplain : Plain core) : unrunAt step core ty children = neverLowered core ty children := by
  cases core with
  | block => cases hplain
  | _ => rfl

theorem without_nil (reads : List Capture) : without [] reads = reads :=
  List.filter_eq_self.mpr fun _ _ => by simp

section Unfolding

variable {Cell : Type} (representation : Representation V Cell)
  (calls : Callee V → List V → Store Cell → Answer E (Store Cell) V) {core : Core} {ty : Ty}

theorem eval_block (site : ℕ) (parameters : List ℕ) (children : List Node) (place : List ℕ)
    (frame : Frame V) (store : Store Cell) :
    eval language representation calls place (.node (.block site parameters) ty children) frame
      store = if neverRuns ty then made language none store
        else if isFunction false (.block site parameters) ty then
          (representation.make place parameters children frame).bind fun cell =>
            made language (some cell) store
        else none := by
  rw [eval.eq_def]

theorem eval_plain (hplain : Plain core) (hread : ∀ binding, core ≠ .read binding)
    {children : List Node} (hwalk : stepAt false core ty children 0 = false) (place : List ℕ)
    (frame : Frame V) (store : Store Cell) :
    eval language representation calls place (.node core ty children) frame store =
      andThen (evalGiven language representation calls place (neverLowered core ty children)
        (givenOf core children.length) 0 children frame store) fun values store =>
      (finish language core ty (children.map Node.ty) (frame.capability core) values).bind
        fun process => andThen (run calls process store) (goOn fun child bound =>
          evalAt language representation calls place (neverLowered core ty children) child
            (boundAt core child) bound 0 children frame) := by
  have hnot : ¬stepAt false core ty children 0 = true := by simp [hwalk]
  cases core with
  | block => cases hplain
  | read binding => exact absurd rfl (hread binding)
  | _ =>
    rw [eval.eq_def]
    exact if_neg hnot

theorem eval_walk {step : Node} {rest : List Node}
    (hwalk : stepAt false core ty (step :: rest) 0 = true) (place : List ℕ) (frame : Frame V)
    (store : Store Cell) :
    eval language representation calls place (.node core ty (step :: rest)) frame store =
      evalStep language representation calls (place ++ [0]) (language.empty core)
        (fun frame => evalGiven language representation calls place
          (neverLowered core ty (step :: rest)) (rest.length + 1) 1 rest frame) step frame store := by
  obtain ⟨⟨reaches, rfl⟩, -, -⟩ := stepAt_true hwalk
  rw [eval.eq_def]
  exact if_pos hwalk

theorem step_cases (core : Core) (children : List Node) :
    (∃ binding binds value body, core = .letIn binding binds ∧ children = [value, body]) ∨
    (∃ site parameters body, core = .block site parameters ∧ children = [body]) ∨
    ∀ {V E Cell : Type} (language : Language V E) (representation : Representation V Cell)
      (calls : Callee V → List V → Store Cell → Answer E (Store Cell) V) (place : List ℕ) (empty : V)
      (given : Frame V → Store Cell → Answer E (Store Cell) (List V)) (ty : Ty) (frame : Frame V)
      (store : Store Cell), evalStep language representation calls place empty given
        (.node core ty children) frame store = none := by
  cases core with
  | letIn binding binds =>
    rcases children with _ | ⟨value, _ | ⟨body, _ | ⟨other, rest⟩⟩⟩
    · right; right; intros; rw [evalStep.eq_def]
    · right; right; intros; rw [evalStep.eq_def]
    · exact .inl ⟨binding, binds, value, body, rfl, rfl⟩
    · right; right; intros; rw [evalStep.eq_def]
  | block site parameters =>
    rcases children with _ | ⟨body, _ | ⟨other, rest⟩⟩
    · right; right; intros; rw [evalStep.eq_def]
    · exact .inr (.inl ⟨site, parameters, body, rfl, rfl⟩)
    · right; right; intros; rw [evalStep.eq_def]
  | _ => right; right; intros; rw [evalStep.eq_def]

end Unfolding

theorem captured_of_held {captures : List Capture} {frame : Frame V}
    (h : ∀ capture ∈ captures, ∃ value, frame.held capture.binding = some value) :
    ∃ captured, captures.mapM (fun capture => frame.held capture.binding) = some captured := by
  induction captures with
  | nil => exact ⟨[], rfl⟩
  | cons capture rest ih =>
    obtain ⟨value, hvalue⟩ := h capture List.mem_cons_self
    obtain ⟨values, hvalues⟩ := ih fun other hother => h other (List.mem_cons_of_mem _ hother)
    refine ⟨value :: values, ?_⟩
    rw [List.mapM_cons, hvalue, hvalues]
    rfl

/-- What a block puts in its closure, by its plan: what each capture holds, and what the body was
    handed where it calls through it. -/
theorem make_carries {found : ClosureSites} {planner : Planner} {place : List ℕ} {id : ℕ} {plan : Site}
    {parameters : List ℕ} {children : List Node} {reads : List Capture} {calls : Bool}
    {frame other : Frame V} {captured : List V} (hat : found.at place = some (id, plan))
    (hcaptured : plan.captures.mapM (fun capture => other.held capture.binding) = some captured)
    (hagree : AgreeOn planner reads calls frame other)
    (henvironment : plan.environment = if calls then some planner.environment else none) :
    ∃ carried, (carrying found).make place parameters children other = some carried ∧
      carried.id = id ∧ carried.captured = captured ∧
      (carried.environment = none ∨ carried.environment = frame.handed) ∧
      (calls = true → carried.environment = frame.handed) := by
  obtain ⟨values, hhanded⟩ := hagree.handed
  cases calls with
  | false =>
    refine ⟨⟨id, captured, none⟩, ?_, rfl, rfl, .inl rfl, by simp⟩
    simp [carrying, hat, hcaptured, henvironment]
  | true =>
    have hother := (hagree.calls rfl).trans hhanded
    refine ⟨⟨id, captured, some ⟨planner.environment, values⟩⟩, ?_, rfl, rfl, .inr hhanded.symm,
      fun _ => hhanded.symm⟩
    simp [carrying, hat, hcaptured, henvironment, hother]

/-- Where a block stands its plan is found, every capture is in force, and what is put in the closure
    restores what the body reads. -/
theorem make_restores {found : ClosureSites} (hnodup : (found.sites.map Prod.fst).Nodup)
    {planner : Planner} {place : List ℕ} {site : ℕ} {parameters : List ℕ} {ty : Ty}
    {children : List Node} {frame other : Frame V} (hruns : ¬neverRuns ty = true)
    (hfunction : isFunction false (.block site parameters) ty = true)
    (hknown : Known found (sitesIn planner place false (.node (.block site parameters) ty children)))
    (hagree : AgreeOn planner (reads false (.node (.block site parameters) ty children))
      (callsHanded planner false (.node (.block site parameters) ty children)) frame other) :
    ∃ carried, (carrying found).make place parameters children other = some carried ∧
      Restores found ⟨place, parameters, children, frame⟩ carried := by
  cases ty with
  | fn takes answers =>
    have hunrun : unrunAt false (.block site parameters) (.fn takes answers) children = [] :=
      if_neg hruns
    rw [sitesIn, hunrun] at hknown
    rw [reads, callsHanded, hunrun] at hagree
    have hunder := hagree.right
    have hmem : (place, siteOf planner parameters children (.block site parameters)
        (.fn takes answers) takes answers) ∈ found.sites := hknown.right _ (.head _)
    obtain ⟨id, hat, hget⟩ := at_of_mem hnodup hmem
    have hcaptures : (siteOf planner parameters children (.block site parameters)
        (.fn takes answers) takes answers).captures = firsts (readsUnder false
          (.block site parameters) (.fn takes answers) children [] 0 children) := by
      rw [siteOf, hunrun]
      rfl
    have henvironment : (siteOf planner parameters children (.block site parameters)
        (.fn takes answers) takes answers).environment = if callsHandedUnder planner false
          (.block site parameters) (.fn takes answers) children [] 0 children
        then some planner.environment else none := by
      rw [siteOf, hunrun]
      rfl
    have hparameters : (siteOf planner parameters children (.block site parameters)
        (.fn takes answers) takes answers).parameters = parameters := rfl
    have hbody : (siteOf planner parameters children (.block site parameters)
        (.fn takes answers) takes answers).body = children := rfl
    generalize siteOf planner parameters children (.block site parameters) (.fn takes answers) takes
      answers = plan at *
    have hheld : ∀ capture ∈ plan.captures, ∃ value, other.held capture.binding = some value := by
      intro capture hcapture
      have hnumber := List.mem_map_of_mem (f := Capture.binding) hcapture
      rw [hcaptures, mem_firsts] at hnumber
      obtain ⟨read, hread, heq⟩ := List.mem_map.mp hnumber
      obtain ⟨value, -, hvalue⟩ := hunder.held read hread
      exact ⟨value, heq ▸ hvalue⟩
    obtain ⟨captured, hcaptured⟩ := captured_of_held hheld
    obtain ⟨carried, hmake, hid, hslots, hless, hflag⟩ :=
      @make_carries V _ _ _ _ _ parameters children _ _ _ _ _ hat hcaptured hunder henvironment
    refine ⟨carried, hmake, ⟨plan, hid ▸ hget, hparameters, hbody, ?_⟩⟩
    rintro body rfl
    refine ⟨planner, ?_, ?_⟩
    · exact hknown.left.left
    · constructor
      · intro read hread
        have hunderRead : read ∈ readsUnder false (.block site parameters) (.fn takes answers) [body]
            [] 0 [body] := List.mem_append_left _ hread
        obtain ⟨value, hvalue, hvalue'⟩ := hunder.held read hunderRead
        have hnumber : read.binding ∈ plan.captures.map Capture.binding := by
          rw [hcaptures, mem_firsts]
          exact List.mem_map_of_mem hunderRead
        obtain ⟨capture, hcapture, heq⟩ := List.mem_map.mp hnumber
        refine ⟨value, hvalue, ?_⟩
        rw [hslots, ← heq, restored_held hcaptured hcapture, heq]
        exact hvalue'
      · exact hagree.handed
      · exact hless
      · intro hcalls
        refine hflag ?_
        exact (Bool.or_false _).trans hcalls
  | _ => cases hfunction

section Simulation

variable {found : ClosureSites} {planner : Planner}
  {calls : Callee V → List V → Store (Whole V) → Answer E (Store (Whole V)) V}
  {calls' : Callee V → List V → Store (Carried V) → Answer E (Store (Carried V)) V}

mutual

theorem eval_same (hnodup : (found.sites.map Prod.fst).Nodup)
    (hcalls : CallsSame found calls calls') :
    ∀ (node : Node) (place : List ℕ) (frame other : Frame V) (store : Store (Whole V))
      (store' : Store (Carried V)), Known found (sitesIn planner place false node) →
      AgreeOn planner (reads false node) (callsHanded planner false node) frame other →
      StoresAlike found store store' →
      Same found (eval language whole calls place node frame store)
        (eval language (carrying found) calls' place node other store')
  | .node core ty children, place, frame, other, store, store', hknown, hagree, hstores => by
    rcases plain_cases core with ⟨site, parameters, rfl⟩ | hplain
    · rw [eval_block, eval_block]
      by_cases hruns : neverRuns ty = true
      · rw [if_pos hruns, if_pos hruns]
        exact hstores.made language .uncallable
      · rw [if_neg hruns, if_neg hruns]
        by_cases hfunction : isFunction false (.block site parameters) ty = true
        · rw [if_pos hfunction, if_pos hfunction]
          obtain ⟨carried, hmake, hrestores⟩ := make_restores hnodup hruns hfunction hknown hagree
          rw [hmake]
          exact hstores.made language (.callable hrestores)
        · rw [if_neg hfunction, if_neg hfunction]
          exact .none
    · rw [sitesIn_plain hplain, unrunAt_plain hplain] at hknown
      rw [reads, callsHanded, unrunAt_plain hplain] at hagree
      by_cases hwalk : stepAt false core ty children 0 = true
      · obtain ⟨⟨reaches, rfl⟩, -, hnone⟩ := stepAt_true hwalk
        cases children with
        | nil =>
          have hnone : Step.ofWalk (.call reaches) [] = none := by
            unfold Step.ofWalk
            split <;> rfl
          rw [stepAt, hnone] at hwalk
          cases hwalk
        | cons step rest =>
          rw [eval_walk language whole calls hwalk, eval_walk language (carrying found) calls' hwalk]
          have hunder := hagree.right
          rw [hnone, sitesUnder, if_neg List.not_mem_nil, hwalk] at hknown
          rw [hnone, readsUnder, callsHandedUnder, if_neg List.not_mem_nil,
            if_neg List.not_mem_nil, hwalk] at hunder
          have hrest := hunder.right
          have hstep := hunder.left
          rw [show boundAt (.call reaches) 0 = [] from rfl, without_nil] at hstep
          refine evalStep_same hnodup hcalls _ _ _ _ _ ?_ step (place ++ [0]) frame other store store'
            hknown.left hstep hrest hstores
          intro frame other store store' hagree hstores
          rw [hnone]
          refine evalGiven_same hnodup hcalls (.call reaches) ty (step :: rest) [] (rest.length + 1) 1
            rest place frame other store store' ?_ hknown.right hagree hstores
          intro given hafter _
          cases given with
          | zero => cases hafter
          | succ given => exact ⟨rfl, rfl⟩
      · rw [Bool.not_eq_true] at hwalk
        by_cases hread : ∃ binding, core = .read binding
        · obtain ⟨binding, rfl⟩ := hread
          obtain ⟨value, hheld, hheld'⟩ := hagree.held ⟨binding, ty⟩ (List.mem_append_left _ (.head _))
          have hframe : ∀ frame : Frame V, frame.held binding = some value →
              ∀ {Cell : Type} (representation : Representation V Cell)
                (calls : Callee V → List V → Store Cell → Answer E (Store Cell) V) store,
              eval language representation calls place (.node (.read binding) ty children) frame
                store = some (.ok (value, store)) := by
            intro frame hheld Cell representation calls store
            exact congrArg (Option.map _) hheld
          rw [hframe frame hheld, hframe other hheld']
          exact .ok value hstores
        · have hread : ∀ binding, core ≠ .read binding := fun binding heq => hread ⟨binding, heq⟩
          rw [eval_plain language whole calls hplain hread hwalk,
            eval_plain language (carrying found) calls' hplain hread hwalk, hagree.capability]
          have hunder := hagree.right
          refine andThen_same (evalGiven_same hnodup hcalls core ty children _ _ 0 children place frame
            other store store' (fun given _ hgiven => boundAt_given hplain hwalk hgiven) hknown hunder
            hstores) ?_
          intro values store store' hstores
          cases finish language core ty (children.map Node.ty) (other.capability core) values with
          | none => exact .none
          | some process =>
            refine andThen_same (run_same hcalls process hstores) ?_
            intro taken store store' hstores
            rcases taken with value | ⟨child, bound⟩
            · exact .ok value hstores
            · exact evalAt_same hnodup hcalls core ty children _ (stepAt_false hwalk) child bound 0
                children place frame other store store' hknown hunder hstores
  termination_by node => sizeOf node

theorem evalGiven_same (hnodup : (found.sites.map Prod.fst).Nodup)
    (hcalls : CallsSame found calls calls') (core : Core) (ty : Ty) (siblings : List Node)
    (unrun : List ℕ) (count : ℕ) :
    ∀ (child : ℕ) (children : List Node) (place : List ℕ) (frame other : Frame V)
      (store : Store (Whole V)) (store' : Store (Carried V)),
      (∀ given, child ≤ given → given < count →
        boundAt core given = [] ∧ stepAt false core ty siblings given = false) →
      Known found (sitesUnder planner place false core ty siblings unrun child children) →
      AgreeOn planner (readsUnder false core ty siblings unrun child children)
        (callsHandedUnder planner false core ty siblings unrun child children) frame other →
      StoresAlike found store store' →
      Same found (evalGiven language whole calls place unrun count child children frame store)
        (evalGiven language (carrying found) calls' place unrun count child children other store')
  | _, [], _, _, _, _, _, _, _, _, hstores => .ok [] hstores
  | child, node :: rest, place, frame, other, store, store', hgiven, hknown, hagree, hstores => by
    rw [evalGiven, evalGiven]
    rw [sitesUnder] at hknown
    rw [readsUnder, callsHandedUnder] at hagree
    by_cases hcount : child < count
    · rw [if_pos hcount, if_pos hcount]
      refine andThen_same ?_ fun value store store' hstores =>
        andThen_same (evalGiven_same hnodup hcalls core ty siblings unrun count (child + 1) rest place
          frame other store store' (fun given hafter => hgiven given (Nat.le_of_succ_le hafter))
          hknown.right hagree.right hstores) fun values _ _ hstores => .ok (value :: values) hstores
      by_cases hunrun : child ∈ unrun
      · rw [if_pos hunrun, if_pos hunrun]
        exact hstores.made language .uncallable
      · rw [if_neg hunrun, if_neg hunrun]
        obtain ⟨hbound, hmode⟩ := hgiven child le_rfl hcount
        have hnode := hagree.left
        have hsites := hknown.left
        rw [if_neg hunrun, if_neg hunrun, hbound, without_nil, hmode] at hnode
        rw [if_neg hunrun, hmode] at hsites
        exact eval_same hnodup hcalls node (place ++ [child]) frame other store store' hsites hnode
          hstores
    · rw [if_neg hcount, if_neg hcount]
      exact .ok [] hstores
  termination_by _ children => sizeOf children

theorem evalAt_same (hnodup : (found.sites.map Prod.fst).Nodup)
    (hcalls : CallsSame found calls calls') (core : Core) (ty : Ty) (siblings : List Node)
    (unrun : List ℕ) (hwalk : ∀ child, stepAt false core ty siblings child = false) (target : ℕ)
    (bound : List V) :
    ∀ (child : ℕ) (children : List Node) (place : List ℕ) (frame other : Frame V)
      (store : Store (Whole V)) (store' : Store (Carried V)),
      Known found (sitesUnder planner place false core ty siblings unrun child children) →
      AgreeOn planner (readsUnder false core ty siblings unrun child children)
        (callsHandedUnder planner false core ty siblings unrun child children) frame other →
      StoresAlike found store store' →
      Same found
        (evalAt language whole calls place unrun target (boundAt core target) bound child children
          frame store)
        (evalAt language (carrying found) calls' place unrun target (boundAt core target) bound child
          children other store')
  | _, [], _, _, _, _, _, _, _, _ => .none
  | child, node :: rest, place, frame, other, store, store', hknown, hagree, hstores => by
    rw [evalAt, evalAt]
    rw [sitesUnder] at hknown
    rw [readsUnder, callsHandedUnder] at hagree
    by_cases htarget : child = target
    · subst htarget
      rw [if_pos rfl, if_pos rfl]
      by_cases hruns : child ∉ unrun ∧ (boundAt core child).length ≤ bound.length
      · rw [if_pos hruns, if_pos hruns]
        have hnode := hagree.left
        have hsites := hknown.left
        rw [if_neg hruns.1, if_neg hruns.1, hwalk child] at hnode
        rw [if_neg hruns.1, hwalk child] at hsites
        exact eval_same hnodup hcalls node (place ++ [child]) _ _ store store' hsites
          (hnode.bindAll hruns.2) hstores
      · rw [if_neg hruns, if_neg hruns]
        exact .none
    · rw [if_neg htarget, if_neg htarget]
      exact evalAt_same hnodup hcalls core ty siblings unrun hwalk target bound (child + 1) rest place
        frame other store store' hknown.right hagree.right hstores
  termination_by _ children => sizeOf children

theorem evalStep_same (hnodup : (found.sites.map Prod.fst).Nodup)
    (hcalls : CallsSame found calls calls') (empty : V) (more : List Capture) (also : Bool)
    (given : Frame V → Store (Whole V) → Answer E (Store (Whole V)) (List V))
    (given' : Frame V → Store (Carried V) → Answer E (Store (Carried V)) (List V))
    (hgiven : ∀ frame other store store', AgreeOn planner more also frame other →
      StoresAlike found store store' → Same found (given frame store) (given' other store')) :
    ∀ (node : Node) (place : List ℕ) (frame other : Frame V)
      (store : Store (Whole V)) (store' : Store (Carried V)),
      Known found (sitesIn planner place true node) →
      AgreeOn planner (reads true node) (callsHanded planner true node) frame other →
      AgreeOn planner more also frame other → StoresAlike found store store' →
      Same found (evalStep language whole calls place empty given node frame store)
        (evalStep language (carrying found) calls' place empty given' node other store')
  | .node core ty children, place, frame, other, store, store', hknown, hagree, hmore, hstores => by
    rcases step_cases core children with ⟨binding, binds, value, body, rfl, rfl⟩ |
      ⟨site, parameters, body, rfl, rfl⟩ | hnone
    · rw [evalStep, evalStep]
      have hreads : reads true (.node (.letIn binding binds) ty [value, body]) =
          without [] (reads false value) ++ (without [binding] (reads true body) ++ []) := rfl
      have hcallsHanded : callsHanded planner true (.node (.letIn binding binds) ty [value, body]) =
          (callsHanded planner false value || (callsHanded planner true body || false)) :=
        Bool.false_or _
      have hsites : sitesIn planner place true (.node (.letIn binding binds) ty [value, body]) =
          (sitesIn planner (place ++ [0]) false value ++
            (sitesIn planner (place ++ [1]) true body ++ [])) ++ [] := rfl
      rw [hreads, hcallsHanded, without_nil, List.append_nil, Bool.or_false] at hagree
      rw [hsites, List.append_nil, List.append_nil] at hknown
      refine andThen_same (eval_same hnodup hcalls value (place ++ [0]) frame other store store'
        hknown.left hagree.left hstores) ?_
      intro held store store' hstores
      have hone : [binding].length ≤ [held].length := le_rfl
      exact evalStep_same hnodup hcalls empty more also given given' hgiven body (place ++ [1]) _ _
        store store' hknown.right (hagree.right.bindAll hone) (hmore.widen hone) hstores
    · rw [evalStep, evalStep]
      have hreads : reads true (.node (.block site parameters) ty [body]) =
          without parameters (reads false body) ++ [] := rfl
      have hcallsHanded : callsHanded planner true (.node (.block site parameters) ty [body]) =
          (callsHanded planner false body || false) := Bool.false_or _
      have hsites : sitesIn planner place true (.node (.block site parameters) ty [body]) =
          (sitesIn planner (place ++ [0]) false body ++ []) ++ [] := rfl
      rw [hreads, hcallsHanded, List.append_nil, Bool.or_false] at hagree
      rw [hsites, List.append_nil, List.append_nil] at hknown
      refine andThen_same (hgiven frame other store store' hmore hstores) ?_
      intro values store store' hstores
      by_cases hlength : parameters.length ≤ 2
      · rw [if_pos hlength, if_pos hlength]
        cases walked language values with
        | none => exact .none
        | some elements =>
          refine loop_same ?_ elements empty hstores
          intro grown element store store' hstores
          exact eval_same hnodup hcalls body (place ++ [0]) _ _ store store' hknown
            (hagree.bindAll hlength) hstores
      · rw [if_neg hlength, if_neg hlength]
        exact .none
    · rw [hnone, hnone]
      exact .none
  termination_by node => sizeOf node

end

end Simulation

theorem StoresAlike.cell {found : ClosureSites} {store : Store (Whole V)} {other : Store (Carried V)}
    (h : StoresAlike found store other) (address : ℕ) :
    CellsAlike found (store[address]?).join (other[address]?).join := by
  induction h generalizing address with
  | nil => exact .uncallable
  | cons hcell _ ih =>
    cases address with
    | zero => exact hcell
    | succ address => exact ih address

def Body.Scoped (body : Body) : Prop :=
  ∀ read ∈ reads false body.standing.node, read.binding ∈ body.parameters

theorem entered_same {found : ClosureSites} (hnodup : (found.sites.map Prod.fst).Nodup)
    {calls : Callee V → List V → Store (Whole V) → Answer E (Store (Whole V)) V}
    {calls' : Callee V → List V → Store (Carried V) → Answer E (Store (Carried V)) V}
    (hcalls : CallsSame found calls calls') {cell : Whole V} {carried : Carried V}
    (h : Restores found cell carried) (given : List V) {store : Store (Whole V)}
    {other : Store (Carried V)} (hstores : StoresAlike found store other) :
    Same found (applied language whole calls cell given store)
      (applied language (carrying found) calls' carried given other) := by
  obtain ⟨site, hsite, hparameters, hbody, hrestores⟩ := h.entered
  have henter : (carrying found).enter carried = some (cell.place, cell.parameters, cell.body,
      restored site.captures carried.captured carried.environment) := by
    simp [carrying, hsite, hparameters, hbody]
  have hwhole : whole.enter cell = some (cell.place, cell.parameters, cell.body, cell.frame) := rfl
  rw [applied, applied, henter, hwhole, Option.bind_some, Option.bind_some]
  rcases hcell : cell.body with _ | ⟨body, _ | ⟨next, rest⟩⟩
  · exact .none
  · obtain ⟨planner, hknown, hagree⟩ := hrestores body hcell
    by_cases hlength : cell.parameters.length = given.length
    · simp only [if_pos hlength]
      exact eval_same language hnodup hcalls body (cell.place ++ [0]) _ _ store other hknown
        (hagree.bindAll hlength.le) hstores
    · simp only [if_neg hlength]
      exact .none
  · exact .none

theorem callsAt_same {bodies : List Body} {found : ClosureSites}
    (hfound : ClosureSites.of (bodies.map Body.standing) = .ok found)
    (hscoped : ∀ body ∈ bodies, body.Scoped) (depth : ℕ) :
    CallsSame found (callsAt language whole bodies depth)
      (callsAt language (carrying found) bodies depth) := by
  obtain ⟨-, rfl⟩ := of_eq_ok.mp hfound
  have hnodup := sitesOf_nodup (bodies.map Body.standing) 0
  induction depth with
  | zero =>
    intro callee given store other _
    exact .none
  | succ depth ih =>
    intro callee given store other hstores
    cases callee with
    | function function =>
      rw [callsAt, callsAt]
      cases language.address function with
      | none => exact .none
      | some address =>
        have hcell := hstores.cell address
        rw [Option.bind_some, Option.bind_some]
        generalize (store[address]?).join = cell at *
        generalize (other[address]?).join = cell' at *
        cases hcell with
        | uncallable => exact .none
        | callable hrestores => exact entered_same language hnodup ih hrestores given hstores
    | body number handed =>
      rw [callsAt, callsAt]
      cases hbody : bodies[number]? with
      | none => exact .none
      | some body =>
        rw [Option.bind_some, Option.bind_some]
        by_cases hlength : body.parameters.length = given.length
        · rw [if_pos hlength, if_pos hlength]
          have hstanding : (bodies.map Body.standing)[number]? = some body.standing := by
            rw [List.getElem?_map, hbody]
            rfl
          refine eval_same language hnodup ih body.standing.node [number] _ _ store other
            (fun entry hentry => mem_sitesOf.mpr ⟨number, body.standing, hstanding, by
              rwa [Nat.zero_add]⟩) ?_ hstores
          refine AgreeOn.bindAll ⟨?_, ⟨handed, rfl⟩, .inr rfl, fun _ => rfl⟩ hlength.le
          intro read hread
          have hmem := List.mem_filter.mp hread
          have hparameter := hscoped body (List.mem_of_getElem? hbody) read hmem.1
          exact absurd hparameter (by simpa using hmem.2)
        · rw [if_neg hlength, if_neg hlength]
          exact .none

def answered {S A : Type} (answer : Answer E S A) : Option (Except E A) :=
  answer.map fun ended => ended.map Prod.fst

theorem Same.answered {found : ClosureSites} {A : Type} {answer : Answer E (Store (Whole V)) A}
    {other : Answer E (Store (Carried V)) A} (h : Same found answer other) :
    Closures.answered answer = Closures.answered other := by
  cases h <;> rfl

/-- A program whose function values carry what their plans say answers as it does under lexical scope:
    with the same value or the same status, and none where that has none. -/
theorem closures_mean {bodies : List Body} {found : ClosureSites}
    (hfound : ClosureSites.of (bodies.map Body.standing) = .ok found)
    (hscoped : ∀ body ∈ bodies, body.Scoped) (depth number : ℕ) (handed given : List V) :
    answered (callsAt language (carrying found) bodies depth (.body number handed) given []) =
      answered (callsAt language whole bodies depth (.body number handed) given []) :=
  (callsAt_same language hfound hscoped depth (.body number handed) given [] [] .nil).answered.symm

def counting : Language ℕ Unit where
  function := id
  address := some
  isTrue value := value != 0
  truth value := value.toNat
  selected _ _ := true
  payload := id
  decided _ _ := .answers (.ok (.inr 0))
  elements _ := []
  index := id
  empty _ := 0
  answers _ _ _ _ values := .answers (.ok values.sum)

def adding : Body where
  parameters := [0]
  standing := ⟨"module", [], .node .apply (.prim .int) [
    .node (.block 0 [1]) (.fn [.prim .int] (.prim .int)) [.node (.binary .add .asTheyStand none)
      (.prim .int) [.node (.read 0) (.prim .int) [], .node (.read 1) (.prim .int) []]],
    .node (.read 0) (.prim .int) []]⟩

theorem closures_mean_adding : ∃ found, ClosureSites.of ([adding].map Body.standing) = .ok found ∧
    answered (callsAt counting (carrying found) [adding] 2 (.body 0 []) [4] []) = some (.ok 8) ∧
    answered (callsAt counting (carrying found) [adding] 2 (.body 0 []) [4] []) =
      answered (callsAt counting whole [adding] 2 (.body 0 []) [4] []) := by
  have hplanned : (ClosureSites.of ([adding].map Body.standing)).isOk = true := by decide +kernel
  have hscoped : ∀ body ∈ [adding], body.Scoped := by
    rintro body hbody read hread
    rw [List.mem_singleton.mp hbody] at hread ⊢
    have heq : read = ⟨0, .prim .int⟩ := by
      simpa [adding, reads, readsUnder, readOf, without, unrunAt, neverLowered, neverRuns, boundAt,
        stepAt] using hread
    rw [heq]
    exact .head _
  cases hfound : ClosureSites.of ([adding].map Body.standing) with
  | error refused =>
    rw [hfound] at hplanned
    cases hplanned
  | ok found =>
    have hmeans := closures_mean counting hfound hscoped 2 0 [] [4]
    have hwhole : answered (callsAt counting whole [adding] 2 (.body 0 []) [4] []) =
        some (.ok 8) := rfl
    exact ⟨found, rfl, hmeans.trans hwhole, hmeans⟩

end SoutherNative.Closures
