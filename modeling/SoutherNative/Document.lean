import SoutherNative.JsonText

set_option autoImplicit false

/-!
# The tree a document's events build

`parsed` of the runtime: a fold of the events with a stack of the containers not closed yet. `node`
is the same tree read off the document at once, and the fold is shown to build it.
-/
namespace SoutherNative.Document
open Utf8 JsonScanner JsonGrammar JsonSyntax JsonText

inductive Form
  | text
  | hostValue

/-- A member's key, as the string it was written as. -/
structure Key where
  written : Bytes
  deriving DecidableEq

inductive Node
  | null
  | bool (truth : Bool)
  | number (written : Bytes)
  | string (bytes : Bytes)
  | array (items : List Node)
  | object (members : List (Key × Node))
  | keyed (members : List (Key × Node))

inductive Open
  | array (items : List Node)
  | object (members : List (Key × Node)) (key : Option Key)

/-- What `parsed` keeps between events: the open containers, innermost first, and the root. -/
structure Reading where
  opens : List Open
  root : Option Node

def settle (r : Reading) (whole : Node) : Except Panic Reading :=
  match r.opens with
  | [] => .ok { r with root := some whole }
  | .array items :: opens => .ok { r with opens := .array (items ++ [whole]) :: opens }
  | .object members (some key) :: opens =>
    .ok { r with opens := .object (members ++ [(key, whole)]) none :: opens }
  | .object _ none :: _ =>
    .error (.expected "the parser answers a key before a member's value")

def closed (form : Form) (members : List (Key × Node)) : Node :=
  match form with
  | .text => .object members
  | .hostValue => .keyed members

def on (form : Form) (r : Reading) (event : Event) : Except Panic Reading :=
  match event with
  | .null => settle r .null
  | .bool truth => settle r (.bool truth)
  | .number written => settle r (.number written)
  | .string text => do
    let said ← bytes text
    settle r (.string said)
  | .beginArray => .ok { r with opens := .array [] :: r.opens }
  | .beginObject => .ok { r with opens := .object [] none :: r.opens }
  | .key text =>
    match r.opens with
    | .object members _ :: opens => do
      let said ← bytes text
      return { r with opens := .object members (some ⟨said⟩) :: opens }
    | _ => .error (.unreachable "the parser answers a key only inside an object")
  | .endArray =>
    match r.opens with
    | .array items :: opens => settle { r with opens := opens } (.array items)
    | _ => .error (.unreachable "the parser closes only the array that is open")
  | .endObject =>
    match r.opens with
    | .object members _ :: opens => settle { r with opens := opens } (closed form members)
    | _ => .error (.unreachable "the parser closes only the object that is open")

/-- The document `bytes` are, or where they stopped being one. -/
def parsed (bytes : Bytes) (form : Form) : Except Panic (Except Malformed Node) := do
  let r ← (read bytes).1.foldlM (on form) ⟨[], none⟩
  match (read bytes).2, r.root with
  | .error malformed, _ => return .error malformed
  | .ok (), some root => return .ok root
  | .ok (), none => .error (.expected "a document the parser read whole has a root")

mutual

def node (form : Form) : Doc → Except Panic Node
  | .null => return .null
  | .bool truth => return .bool truth
  | .number written => return .number written
  | .string text => return .string (← bytes text)
  | .array items => return .array (← nodes form items)
  | .object members => return closed form (← memberNodes form members)

def nodes (form : Form) : List Doc → Except Panic (List Node)
  | [] => return []
  | d :: ds => return (← node form d) :: (← nodes form ds)

def memberNodes (form : Form) : List (Text × Doc) → Except Panic (List (Key × Node))
  | [] => return []
  | (key, d) :: ms => return (⟨← bytes key⟩, ← node form d) :: (← memberNodes form ms)

end

theorem ok_bind {ε α β : Type} (a : α) (f : α → Except ε β) : (Except.ok a >>= f) = f a := rfl

mutual

theorem foldlM_events (form : Form) (d : Doc) (r : Reading) :
    d.events.foldlM (on form) r = node form d >>= settle r := by
  cases d with
  | null | bool | number | string => simp [Doc.events, on, node]
  | array items =>
    simp [Doc.events, on, node, ok_bind, foldlM_itemEvents form items []]
  | object members =>
    simp [Doc.events, on, node, ok_bind, foldlM_memberEvents form members []]

theorem foldlM_itemEvents (form : Form) (ds : List Doc) (items : List Node) (opens : List Open)
    (root : Option Node) :
    (itemEvents ds).foldlM (on form) ⟨.array items :: opens, root⟩ =
      nodes form ds >>= fun ns => pure ⟨.array (items ++ ns) :: opens, root⟩ := by
  cases ds with
  | nil => simp [itemEvents, nodes]
  | cons d ds =>
    simp [itemEvents, nodes, foldlM_events form d, foldlM_itemEvents form ds, settle, ok_bind]

theorem foldlM_memberEvents (form : Form) (ms : List (Text × Doc)) (members : List (Key × Node))
    (opens : List Open) (root : Option Node) :
    (memberEvents ms).foldlM (on form) ⟨.object members none :: opens, root⟩ =
      memberNodes form ms >>= fun ns => pure ⟨.object (members ++ ns) none :: opens, root⟩ := by
  cases ms with
  | nil => simp [memberEvents, memberNodes]
  | cons m ms =>
    obtain ⟨key, d⟩ := m
    simp [memberEvents, memberNodes, on, foldlM_events form d, foldlM_memberEvents form ms,
      settle, ok_bind]

end

/-- A document shallow enough for the parser is parsed as its tree. -/
theorem parsed_document {d : Doc} {bytes : Bytes} {form : Form} {n : Node}
    (h : Document d bytes) (hdeep : d.depth ≤ deepest) (hn : node form d = .ok n) :
    parsed bytes form = .ok (.ok n) := by
  have hr := JsonAccepting.read_document h hdeep
  have hfold : d.events.foldlM (on form) ⟨[], none⟩ = .ok ⟨[], some n⟩ := by
    rw [foldlM_events, hn]
    rfl
  unfold parsed
  rw [hr]
  dsimp only
  rw [hfold]
  rfl

end SoutherNative.Document
