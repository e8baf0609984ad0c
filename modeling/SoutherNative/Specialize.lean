import SoutherNative.Nodes

set_option autoImplicit false

/-!
# The copies of a helper

A helper whose body leaves type variables open, made into one function for each set of types a call
needs. A copy is keyed by the helper and what its variables come to, and the copies are made as
calls reach them: a copy made while one is read is read after it.
-/
namespace SoutherNative.Specialize
open Transport Nodes

def DEPTH : ℕ := 16

def REENTERED : ℕ := 64

mutual

def numbers : Ty → List ℕ
  | .var n => [n]
  | .option held | .list held | .set held => numbers held
  | .tuple members => numbersAll members
  | .fn takes answers => numbersAll takes ++ numbers answers
  | .map key value => numbers key ++ numbers value
  | .prim _ | .ref _ | .union _ | .nothing | .never => []

def numbersAll : List Ty → List ℕ
  | [] => []
  | ty :: rest => numbers ty ++ numbersAll rest

end

def isOpen (ty : Ty) : Bool := !(numbers ty).isEmpty

abbrev Substitution := List (Option Ty)

mutual

/-- The bindings after holding `actual` to be `template` with each variable of `template` standing
    for a type, where it is: a variable binds the first time it is met and is held to that every
    time after. -/
def binds (bound : Substitution) (template actual : Ty) : Option Substitution :=
  -- A template that writes no variable is the same type or not, asked whole.
  if isOpen template = false then if template = actual then some bound else none
  else match template, actual with
    | .var n, actual =>
      let bound := bound ++ List.replicate (n + 1 - bound.length) none
      match bound[n]?.join with
      | some already => if already = actual then some bound else none
      | none => some (bound.set n (some actual))
    | .option held, .option also | .list held, .list also | .set held, .set also =>
      binds bound held also
    | .tuple members, .tuple also => bindsAll bound members also
    | .fn takes answers, .fn takes' answers' =>
      (bindsAll bound takes takes').bind fun bound => binds bound answers answers'
    | .map key value, .map key' value' =>
      (binds bound key key').bind fun bound => binds bound value value'
    | _, _ => none

def bindsAll (bound : Substitution) : List Ty → List Ty → Option Substitution
  | [], [] => some bound
  | template :: templates, actual :: actuals =>
    (binds bound template actual).bind fun bound => bindsAll bound templates actuals
  | [], _ :: _ | _ :: _, [] => none

end

mutual

def partlyApplied (bound : Substitution) : Ty → Ty
  | .var n => bound[n]?.join.getD (.var n)
  | .option held => .option (partlyApplied bound held)
  | .list held => .list (partlyApplied bound held)
  | .set held => .set (partlyApplied bound held)
  | .tuple members => .tuple (partlyAppliedAll bound members)
  | .fn takes answers => .fn (partlyAppliedAll bound takes) (partlyApplied bound answers)
  | .map key value => .map (partlyApplied bound key) (partlyApplied bound value)
  | .prim p => .prim p
  | .ref named => .ref named
  | .union union => .union union
  | .nothing => .nothing
  | .never => .never

def partlyAppliedAll (bound : Substitution) : List Ty → List Ty
  | [] => []
  | ty :: rest => partlyApplied bound ty :: partlyAppliedAll bound rest

end

/-- What each of the first `count` variables came to, `none` for one nothing bound. -/
def byNumber (bound : Substitution) (count : ℕ) : List (Option Ty) :=
  (List.range count).map fun place => bound[place]?.join

/-- A helper: the reference a call in the holding module reaches it by, what it takes, and its
    body. -/
structure Held where
  reached : Reference
  parameters : List Ty
  body : Node

def Held.answers (held : Held) : Ty := held.body.ty

mutual

def numbersWritten : Node → List ℕ
  | .node core ty children => (ty :: core.types).flatMap numbers ++ numbersUnder children

def numbersUnder : List Node → List ℕ
  | [] => []
  | child :: rest => numbersWritten child ++ numbersUnder rest

end

def Held.numbers (held : Held) : List ℕ :=
  held.parameters.flatMap Specialize.numbers ++ numbersWritten held.body

def Held.variables (held : Held) : ℕ :=
  (held.numbers.map (· + 1)).foldr max 0

/-- What a call of `held` settles its variables to, read off what it hands each parameter and what
    it answers, where the two fit what the helper takes and answers. -/
def called (held : Held) (handed : List Ty) (answers : Ty) : Option Substitution :=
  (bindsAll [] held.parameters handed).bind fun bound => binds bound held.answers answers

structure Called where
  place : List ℕ
  reached : Reference
  handed : List Ty
  answers : Ty

def callOf (place : List ℕ) (core : Core) (ty : Ty) (children : List Node) : List Called :=
  match core with
  | .call (.helper reached) => [⟨place, reached, children.map Node.ty, ty⟩]
  | _ => []

mutual

def callsIn (place : List ℕ) : Node → List Called
  | .node core ty children =>
    callOf place core ty children ++ callsUnder place (neverLowered core ty children) 0 children

def callsUnder (place unrun : List ℕ) : ℕ → List Node → List Called
  | _, [] => []
  | child, node :: rest =>
    (if child ∈ unrun then [] else callsIn (place ++ [child]) node) ++
      callsUnder place unrun (child + 1) rest

end

mutual

def settle (bound : Substitution) : Node → Node
  | .node core ty children =>
    let core := core.retyped (partlyApplied bound)
    let ty := partlyApplied bound ty
    .node core ty (settleUnder bound (neverLowered core ty children) 0 children)

def settleUnder (bound : Substitution) (unrun : List ℕ) : ℕ → List Node → List Node
  | _, [] => []
  | child, node :: rest =>
    (if child ∈ unrun then node else settle bound node) ::
      settleUnder bound unrun (child + 1) rest

end

inductive Owner
  | helper (held : Held)
  | value | entry | definition | example | expected | stoodIn | invariant | ensures

/-- A body an object runs, with the module it stands in. -/
structure Body where
  home : String
  owner : Owner
  node : Node

def Owner.helper? : Owner → Option Held
  | .helper held => some held
  | .value | .entry | .definition | .example | .expected | .stoodIn | .invariant | .ensures => none

abbrev HelperKey := String × Reference

abbrev Key := String × Reference × List (Option Ty)

structure Instance where
  home : String
  held : Held
  types : List (Option Ty)
  /-- Which copy of the helper this is, counted from nought. -/
  ordinal : ℕ
  /-- The copy whose body a call made this one, where a call in one did. -/
  parent : Option ℕ

def Instance.key (copy : Instance) : Key := (copy.home, copy.held.reached, copy.types)

def Instance.helperKey (copy : Instance) : HelperKey := (copy.home, copy.held.reached)

def bodyOf (held : Held) (types : List (Option Ty)) : Node :=
  if types.isEmpty then held.body else settle types held.body

def Instance.body (copy : Instance) : Node := bodyOf copy.held copy.types

inductive Standing
  | root (root : ℕ)
  | copy (id : ℕ)
  deriving DecidableEq

structure Budget where
  limit : ℕ
  spent : HelperKey → ℕ

/-- Spends one copy of `helper`, where there is one left to spend. -/
def Budget.spend (budget : Budget) (helper : HelperKey) : Option Budget :=
  if budget.limit ≤ budget.spent helper then none
  else some { budget with
    spent := Function.update budget.spent helper (budget.spent helper + 1) }

structure Specializations where
  instances : List Instance
  byKey : Key → Option ℕ
  /-- The copies of each helper made from the body of a copy of the same helper. -/
  reentered : Budget
  made : HelperKey → ℕ
  reached : Standing × List ℕ → Option ℕ

def Specializations.new : Specializations where
  instances := []
  byKey := fun _ => none
  reentered := ⟨REENTERED, fun _ => 0⟩
  made := fun _ => 0
  reached := fun _ => none

inductive Stop
  | notLowered (what : String)
  | panicked (what : String)

def unique {K V : Type} [DecidableEq K] (index : K → Option V) (key : K) (value : V) :
    Except Stop (K → Option V) :=
  match index key with
  | some _ => .error (.panicked
      "a key named twice after `coherent` held every one of them to be named once")
  | none => .ok (Function.update index key (some value))

def ancestry (instances : List Instance) : ℕ → Option ℕ → List Instance
  | 0, _ | _, none => []
  | steps + 1, some id =>
    match instances[id]? with
    | none => []
    | some ancestor => ancestor :: ancestry instances steps ancestor.parent

def convergesNot (held : Held) : String :=
  s!"{held.reached.rendered}, whose copies would be made one from the body of another without " ++
    "end: the types it is called at keep growing"

/-- How many of a helper's copies the chain of copies ending at `parent` already holds. -/
def along (instances : List Instance) (parent : Option ℕ) (helper : HelperKey) : ℕ :=
  (ancestry instances instances.length parent).countP fun ancestor => ancestor.helperKey = helper

/-- What is left to spend once a copy is made under `already` copies of its own helper, where both
    limits allow it. -/
def allowed (reentered : Budget) (already : ℕ) (helper : HelperKey) : Option Budget :=
  if DEPTH ≤ already then none
  else if 0 < already then reentered.spend helper
  else some reentered

/-- The copy of `held` whose variables come to `types`, made where there is none yet. -/
def copy (s : Specializations) (parent : Option ℕ) (home : String) (held : Held)
    (types : List (Option Ty)) : Except Stop (ℕ × Specializations) :=
  let key : Key := (home, held.reached, types)
  match s.byKey key with
  | some id => .ok (id, s)
  | none =>
    let helper : HelperKey := (home, held.reached)
    match allowed s.reentered (along s.instances parent helper) helper with
    | none => .error (.notLowered (convergesNot held))
    | some reentered => do
      let id := s.instances.length
      let byKey ← unique s.byKey key id
      return (id, {
        instances := s.instances ++ [⟨home, held, types, s.made helper, parent⟩]
        byKey
        reentered
        made := Function.update s.made helper (s.made helper + 1)
        reached := s.reached })

def gathered : List Body → (HelperKey → Option Held) → Except Stop (HelperKey → Option Held)
  | [], helpers => .ok helpers
  | body :: rest, helpers =>
    match body.owner.helper? with
    | some held => do
      let helpers ← unique helpers (body.home, held.reached) held
      gathered rest helpers
    | none => gathered rest helpers

def resolve (helpers : HelperKey → Option Held) (parent : Option ℕ) (standing : Standing)
    (home : String) : List Called → Specializations → Except Stop Specializations
  | [], s => .ok s
  | call :: rest, s =>
    match helpers (home, call.reached) with
    | none => .error (.panicked
        "`Coherent` held every helper a call reaches to be one its module holds")
    | some held =>
      match called held call.handed call.answers with
      | none => .error (.panicked
          "`Coherent` held every call of a helper to fit what the helper takes")
      | some bound => do
        let (id, s) ← copy s parent home held (byNumber bound held.variables)
        let reached ← unique s.reached (standing, call.place) id
        resolve helpers parent standing home rest { s with reached }

def copyShut : List Body → Specializations → Except Stop Specializations
  | [], s => .ok s
  | body :: rest, s =>
    match body.owner.helper? with
    | some held =>
      if held.variables = 0 then do
        let (_, s) ← copy s none body.home held []
        copyShut rest s
      else copyShut rest s
    | none => copyShut rest s

def roots (bodies : List Body) : List Body :=
  bodies.filter fun body => body.owner.helper?.isNone

def resolveRoots (helpers : HelperKey → Option Held) :
    ℕ → List Body → Specializations → Except Stop Specializations
  | _, [], s => .ok s
  | place, body :: rest, s => do
    let s ← resolve helpers none (.root place) body.home (callsIn [] body.node) s
    resolveRoots helpers (place + 1) rest s

/-- Each copy's body from the one at `place` on, once, in the order the copies were made: `none`
    where `steps` of them are not enough. -/
def walk (helpers : HelperKey → Option Held) :
    ℕ → ℕ → Specializations → Option (Except Stop Specializations)
  | 0, _, _ => none
  | steps + 1, place, s =>
    match s.instances[place]? with
    | none => some (.ok s)
    | some instanceAt =>
      match resolve helpers (some place) (.copy place) instanceAt.home
          (callsIn [] instanceAt.body) s with
      | .error stop => some (.error stop)
      | .ok s => walk helpers steps (place + 1) s

def begun (bodies : List Body) :
    Except Stop ((HelperKey → Option Held) × Specializations) := do
  let helpers ← gathered bodies fun _ => none
  let s ← copyShut bodies Specializations.new
  let s ← resolveRoots helpers 0 (roots bodies) s
  return (helpers, s)

def of (steps : ℕ) (bodies : List Body) : Option (Except Stop Specializations) :=
  match begun bodies with
  | .error stop => some (.error stop)
  | .ok (helpers, s) => walk helpers steps 0 s

def callee (s : Specializations) (standing : Standing) (call : Called) : Option ℕ :=
  s.reached (standing, call.place)

end SoutherNative.Specialize
