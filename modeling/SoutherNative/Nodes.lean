import SoutherNative.Transport

set_option autoImplicit false

/-!
# Bodies

A body as the document writes it: a tree whose every node says what it is, the types it writes and
the nodes under it in the order they are written, and which of those are written and never run.
-/
namespace SoutherNative.Nodes
open Transport

inductive Reference
  | own (home name : String)
  | ofModule (home name : String)
  | library (publishedAs name : String)
  deriving DecidableEq

def Reference.rendered : Reference → String
  | .own _ name => name
  | .ofModule home name => s!"{home}.{name}"
  | .library publishedAs name => s!"{publishedAs}.{name}"

inductive Emitted
  | buildList | growList | buildMap | putMap
  deriving DecidableEq

inductive KernelFact
  | none
  | stringMatches (written image : String)
  | orderingSubject (ty : Ty) (ordering : Option Ty)
  deriving DecidableEq

def KernelFact.types : KernelFact → List Ty
  | .none | .stringMatches _ _ => []
  | .orderingSubject ty ordering => ty :: ordering.toList

def KernelFact.retyped (f : Ty → Ty) : KernelFact → KernelFact
  | .none => .none
  | .stringMatches written image => .stringMatches written image
  | .orderingSubject ty ordering => .orderingSubject (f ty) (ordering.map f)

inductive Reaches
  | helper (reached : Reference)
  | value (home name : String)
  | publishedValue (home name : String)
  | behavior (declared : String)
  | emitted (operation : Emitted)
  | kernel (kernel : String) (takes : List Ty) (fact : KernelFact)
  deriving DecidableEq

def Reaches.types : Reaches → List Ty
  | .kernel _ takes fact => takes ++ fact.types
  | .helper _ | .value _ _ | .publishedValue _ _ | .behavior _ | .emitted _ => []

def Reaches.retyped (f : Ty → Ty) : Reaches → Reaches
  | .kernel key takes fact => .kernel key (takes.map f) (fact.retyped f)
  | .helper reached => .helper reached
  | .value home name => .value home name
  | .publishedValue home name => .publishedValue home name
  | .behavior declared => .behavior declared
  | .emitted operation => .emitted operation

inductive Op
  | add | sub | mul | div | eq | ne | lt | le | gt | ge | and | or | concat
  deriving DecidableEq

inductive Reading
  | asTheyStand
  | inTy (ty : Ty)
  | opened (newtype base : Ty)
  | exactNumbers
  deriving DecidableEq

def Reading.types : Reading → List Ty
  | .asTheyStand | .exactNumbers => []
  | .inTy ty => [ty]
  | .opened newtype base => [newtype, base]

def Reading.retyped (f : Ty → Ty) : Reading → Reading
  | .asTheyStand => .asTheyStand
  | .exactNumbers => .exactNumbers
  | .inTy ty => .inTy (f ty)
  | .opened newtype base => .opened (f newtype) (f base)

inductive Selects
  | which (atoms : Cases) | held | nothing
  deriving DecidableEq

inductive ArmBinding
  | selected (number : ℕ) (readAs : Ty)
  | payload (number : ℕ) (readAs : Ty)
  deriving DecidableEq

def ArmBinding.number : ArmBinding → ℕ
  | .selected number _ | .payload number _ => number

def ArmBinding.readAs : ArmBinding → Ty
  | .selected _ readAs | .payload _ readAs => readAs

def ArmBinding.retyped (f : Ty → Ty) : ArmBinding → ArmBinding
  | .selected number readAs => .selected number (f readAs)
  | .payload number readAs => .payload number (f readAs)

structure Arm where
  selects : List Selects
  binding : Option ArmBinding

/-- What a node is. The nodes under it stand in its `children`, in the order the source lists
    them. -/
inductive Core
  | int (value : ℤ)
  | read (binding : ℕ)
  | bool (value : Bool)
  | str (value : String)
  | decimal (unscaled : String) (scale : ℤ)
  | temporal (count nano : ℤ)
  | binary (op : Op) (reading : Reading) (ordering : Option Ty)
  | neg
  | letIn (binding : ℕ) (binds : Ty)
  | ifElse
  | unit (unit : Case)
  | construct (declared : String)
  | attempt (declared : String) (values binding : ℕ) (binds : Ty)
  | field (field : String)
  | matchOn (arms : List Arm)
  | some
  | none
  | tuple
  | member (place : ℕ)
  | list
  | call (reaches : Reaches)
  | block (site : ℕ) (parameters : List ℕ)
  | apply
  | widen
  | unreachable (reason : String)

def Core.types : Core → List Ty
  | .binary _ reading ordering => reading.types ++ ordering.toList
  | .letIn _ binds | .attempt _ _ _ binds => [binds]
  | .matchOn arms => arms.filterMap fun arm => arm.binding.map ArmBinding.readAs
  | .call reaches => reaches.types
  | .int _ | .read _ | .bool _ | .str _ | .decimal _ _ | .temporal _ _ | .neg | .ifElse | .unit _
  | .construct _ | .field _ | .some | .none | .tuple | .member _ | .list | .block _ _ | .apply
  | .widen | .unreachable _ => []

def Core.retyped (f : Ty → Ty) : Core → Core
  | .binary op reading ordering => .binary op (reading.retyped f) (ordering.map f)
  | .letIn binding binds => .letIn binding (f binds)
  | .attempt declared values binding binds => .attempt declared values binding (f binds)
  | .matchOn arms =>
    .matchOn (arms.map fun arm => { arm with binding := arm.binding.map (ArmBinding.retyped f) })
  | .call reaches => .call (reaches.retyped f)
  | .int value => .int value
  | .read binding => .read binding
  | .bool value => .bool value
  | .str value => .str value
  | .decimal unscaled scale => .decimal unscaled scale
  | .temporal count nano => .temporal count nano
  | .neg => .neg
  | .ifElse => .ifElse
  | .unit named => .unit named
  | .construct declared => .construct declared
  | .field name => .field name
  | .some => .some
  | .none => .none
  | .tuple => .tuple
  | .member place => .member place
  | .list => .list
  | .block site parameters => .block site parameters
  | .apply => .apply
  | .widen => .widen
  | .unreachable reason => .unreachable reason

inductive Node
  | node (core : Core) (ty : Ty) (children : List Node)

namespace Node

def ty : Node → Ty
  | .node _ ty _ => ty

def types : Node → List Ty
  | .node core ty _ => ty :: core.types

end Node

def neverRuns : Ty → Bool
  | .fn takes _ => takes.any fun taken => taken = .nothing
  | _ => false

def neverApplied (reaches : Reaches) (arguments : List Node) : List ℕ :=
  match reaches with
  | .kernel _ _ _ => []
  | .emitted _ | .helper _ | .value _ _ | .publishedValue _ _ | .behavior _ =>
    arguments.findIdxs fun argument => neverRuns argument.ty

/-- Whether an arm testing a value of type `subject` is never entered. -/
def neverEntered (arm : Arm) (subject : Ty) : Bool :=
  subject.holdsNoValue && arm.selects.all fun selects => selects = .held

def neverLowered (core : Core) (ty : Ty) (children : List Node) : List ℕ :=
  match core, children with
  | .matchOn arms, subject :: _ =>
    -- An arm's body stands after the subject and the bodies of the arms before it.
    (arms.findIdxs fun arm => neverEntered arm subject.ty).map (· + 1)
  | .call reaches, arguments => neverApplied reaches arguments
  | .block _ _, _ => if neverRuns ty then [0] else []
  | _, _ => []

mutual

def size : Node → ℕ
  | .node _ _ children => 1 + sizes children

def sizes : List Node → ℕ
  | [] => 0
  | child :: rest => size child + sizes rest

end

end SoutherNative.Nodes
