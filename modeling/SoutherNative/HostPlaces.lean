import SoutherNative.Document

set_option autoImplicit false

/-!
# A host's value and the text of it

What a reader asks of a place, and the document a host hands over where every container it has is an
ordered map: an array is written as the object whose keys are its indices. Read as what a host
built, it answers at every place what the text answers there.
-/
namespace SoutherNative.Document
open Utf8 JsonScanner JsonGrammar JsonSyntax JsonText

/-- `index.to_string()`. -/
def indexKey (index : ℕ) : Bytes := encode (Nat.toDigits 10 index)

namespace Node

def isObject : Node → Bool
  | .object _ | .keyed _ => true
  | _ => false

def length : Node → Option ℕ
  | .array items => some items.length
  | .keyed members =>
    if members.zipIdx.all fun member => member.1.1.written = indexKey member.2
    then some members.length else none
  | _ => none

def element (node : Node) (index : ℕ) : Option Node := do
  let _ ← node.length.filter (index < ·)
  match node with
  | .array items => items[index]?
  | .keyed members => members[index]?.map Prod.snd
  | _ => none

def member (node : Node) (key : Bytes) : Option Node :=
  match node with
  | .object members | .keyed members =>
    (members.find? fun member => member.1.written = key).map Prod.snd
  | _ => none

def members : Node → List (Key × Node)
  | .object members | .keyed members => members
  | _ => []

end Node

inductive Move
  | element (index : ℕ)
  | member (key : Bytes)
  | listed (index : ℕ)

def Node.move (node : Node) : Move → Option Node
  | .element index => node.element index
  | .member key => node.member key
  | .listed index => node.members[index]?.map Prod.snd

def Node.reach (node : Node) (moves : List Move) : Option Node := moves.foldlM Node.move node

/-- A host's place answers what the text's place does: of an array its length and its elements, of
an object that it is one and its members, and of anything else itself. -/
structure Answers (text host : Node) : Prop where
  array : ∀ items, text = .array items → host.length = some items.length ∧
    ∀ index, (host.element index).isSome = (text.element index).isSome
  object : text.isObject = true → host.isObject = true ∧
    (∀ key, (host.member key).isSome = (text.member key).isSome) ∧
    host.members.map Prod.fst = text.members.map Prod.fst
  scalar : text.isObject = false → (∀ items, text ≠ .array items) → host = text

mutual

def hostDoc : Doc → Doc
  | .array items => .object (hostItems 0 items)
  | .object members => .object (hostMembers members)
  | .null => .null
  | .bool truth => .bool truth
  | .number written => .number written
  | .string text => .string text

def hostItems (index : ℕ) : List Doc → List (Text × Doc)
  | [] => []
  | d :: ds => (⟨indexKey index⟩, hostDoc d) :: hostItems (index + 1) ds

def hostMembers : List (Text × Doc) → List (Text × Doc)
  | [] => []
  | (key, d) :: ms => (key, hostDoc d) :: hostMembers ms

end

mutual

def Node.hosted : Node → Node
  | .array items => .keyed (hostedItems 0 items)
  | .object members => .keyed (hostedMembers members)
  | .keyed members => .keyed (hostedMembers members)
  | .null => .null
  | .bool truth => .bool truth
  | .number written => .number written
  | .string said => .string said

def hostedItems (index : ℕ) : List Node → List (Key × Node)
  | [] => []
  | n :: ns => (⟨indexKey index⟩, n.hosted) :: hostedItems (index + 1) ns

def hostedMembers : List (Key × Node) → List (Key × Node)
  | [] => []
  | (key, n) :: ms => (key, n.hosted) :: hostedMembers ms

end

section Reading

theorem plain_spells {cs : List Char} (h : ∀ c ∈ cs, 0x20 ≤ c.toNat ∧ c ≠ '"' ∧ c ≠ '\\') :
    Spells (encode cs) cs := by
  induction cs with
  | nil => exact .nil
  | cons c cs ih =>
    obtain ⟨hlow, hquote, hslash⟩ := h c List.mem_cons_self
    exact .cons (.plain c hlow hquote hslash) (ih fun d hd => h d (List.mem_cons_of_mem c hd))

theorem digit_plain {c : Char} (h : c.isDigit = true) : 0x20 ≤ c.toNat ∧ c ≠ '"' ∧ c ≠ '\\' := by
  refine ⟨?_, ?_, ?_⟩
  · simp only [Char.isDigit, Bool.and_eq_true, decide_eq_true_eq, ge_iff_le,
      UInt32.le_iff_toNat_le] at h
    have hcode : '0'.val.toNat = 48 := by decide
    have hplace : c.val.toNat = c.toNat := rfl
    omega
  · rintro rfl
    exact absurd h (by decide)
  · rintro rfl
    exact absurd h (by decide)

theorem bytes_indexKey (index : ℕ) : bytes ⟨indexKey index⟩ = .ok (indexKey index) :=
  bytes_spells (plain_spells fun _ hc =>
    digit_plain (Nat.isDigit_of_mem_toDigits (by decide) (by decide) hc))

mutual

theorem node_hostDoc (d : Doc) : node .hostValue (hostDoc d) = (node .text d).map Node.hosted := by
  cases d with
  | null => rfl
  | bool truth => rfl
  | number written => rfl
  | string text =>
    rw [hostDoc, node, node]
    cases bytes text <;> rfl
  | array items =>
    rw [hostDoc, node, node, memberNodes_hostItems 0 items]
    cases nodes .text items <;> rfl
  | object members =>
    rw [hostDoc, node, node, memberNodes_hostMembers members]
    cases memberNodes .text members <;> rfl

theorem memberNodes_hostItems (index : ℕ) (ds : List Doc) :
    memberNodes .hostValue (hostItems index ds) = (nodes .text ds).map (hostedItems index) := by
  cases ds with
  | nil => rfl
  | cons d ds =>
    rw [hostItems, memberNodes, nodes, bytes_indexKey, node_hostDoc d,
      memberNodes_hostItems (index + 1) ds]
    cases node .text d with
    | error panic => rfl
    | ok n => cases nodes .text ds <;> rfl

theorem memberNodes_hostMembers (ms : List (Text × Doc)) :
    memberNodes .hostValue (hostMembers ms) = (memberNodes .text ms).map hostedMembers := by
  cases ms with
  | nil => rfl
  | cons m ms =>
    obtain ⟨key, d⟩ := m
    rw [hostMembers, memberNodes, memberNodes, node_hostDoc d, memberNodes_hostMembers ms]
    cases bytes key with
    | error panic => rfl
    | ok said =>
      cases node .text d with
      | error panic => rfl
      | ok n => cases memberNodes .text ms <;> rfl

end

mutual

theorem depth_hostDoc (d : Doc) : (hostDoc d).depth = d.depth := by
  cases d with
  | null | bool | number | string => rfl
  | array items => rw [hostDoc, Doc.depth, Doc.depth, depth_hostItems 0 items]
  | object members => rw [hostDoc, Doc.depth, Doc.depth, depth_hostMembers members]

theorem depth_hostItems (index : ℕ) (ds : List Doc) :
    membersDepth (hostItems index ds) = itemsDepth ds := by
  cases ds with
  | nil => rfl
  | cons d ds =>
    rw [hostItems, membersDepth, itemsDepth, depth_hostDoc d, depth_hostItems (index + 1) ds]

theorem depth_hostMembers (ms : List (Text × Doc)) :
    membersDepth (hostMembers ms) = membersDepth ms := by
  cases ms with
  | nil => rfl
  | cons m ms =>
    obtain ⟨key, d⟩ := m
    rw [hostMembers, membersDepth, membersDepth, depth_hostDoc d, depth_hostMembers ms]

end

end Reading

section Keys

theorem all_indices (members : List (Key × Node)) (first : ℕ) :
    ((members.zipIdx first).all fun member => member.1.1.written = indexKey member.2) = true ↔
      (members.map fun member => member.1.written) =
        (List.range' first members.length).map indexKey := by
  induction members generalizing first with
  | nil => simp
  | cons member members ih =>
    rw [List.zipIdx_cons, List.all_cons, Bool.and_eq_true, ih, decide_eq_true_eq, List.map_cons,
      List.length_cons, List.range'_succ, List.map_cons, List.cons.injEq]

/-- A host's map has a length exactly where its keys are its indices in their order. -/
theorem length_keyed (members : List (Key × Node)) (length : ℕ) :
    (Node.keyed members).length = some length ↔
      (members.map fun member => member.1.written) = (List.range length).map indexKey := by
  rw [Node.length, List.range_eq_range']
  constructor
  · intro h
    split_ifs at h with hall
    cases h
    exact (all_indices members 0).mp hall
  · intro h
    have hlength : members.length = length := by
      simpa using congrArg List.length h
    rw [← hlength] at h ⊢
    rw [if_pos ((all_indices members 0).mpr h)]

theorem length_congr {one other : List (Key × Node)} (h : one.map Prod.fst = other.map Prod.fst) :
    (Node.keyed one).length = (Node.keyed other).length := by
  have hwritten : (one.map fun member => member.1.written) =
      other.map fun member => member.1.written := by
    have hmap := congrArg (List.map Key.written) h
    rwa [List.map_map, List.map_map] at hmap
  apply Option.ext
  intro length
  rw [length_keyed, length_keyed, hwritten]

end Keys

section Places

theorem hostedItems_getElem? (first index : ℕ) (items : List Node) :
    (hostedItems first items)[index]? =
      items[index]?.map fun n => (⟨indexKey (first + index)⟩, n.hosted) := by
  induction items generalizing first index with
  | nil => rfl
  | cons n items ih =>
    cases index with
    | zero => rfl
    | succ index =>
      rw [hostedItems, List.getElem?_cons_succ, List.getElem?_cons_succ, ih, Nat.add_assoc,
        Nat.add_comm 1]

theorem hostedItems_keys (first : ℕ) (items : List Node) :
    ((hostedItems first items).map fun member => member.1.written) =
      (List.range' first items.length).map indexKey := by
  induction items generalizing first with
  | nil => rfl
  | cons n items ih =>
    rw [hostedItems, List.map_cons, ih, List.length_cons, List.range'_succ, List.map_cons]

theorem hostedMembers_eq (members : List (Key × Node)) :
    hostedMembers members = members.map fun member => (member.1, member.2.hosted) := by
  induction members with
  | nil => rfl
  | cons member members ih =>
    rw [hostedMembers, ih]
    rfl

theorem hostedMembers_keys (members : List (Key × Node)) :
    (hostedMembers members).map Prod.fst = members.map Prod.fst := by
  rw [hostedMembers_eq, List.map_map]
  rfl

theorem length_hostedItems (items : List Node) :
    (Node.keyed (hostedItems 0 items)).length = some items.length := by
  rw [length_keyed, hostedItems_keys, List.range_eq_range']

theorem find_hostedMembers (members : List (Key × Node)) (key : Bytes) :
    ((hostedMembers members).find? fun member => member.1.written = key).map Prod.snd =
      ((members.find? fun member => member.1.written = key).map Prod.snd).map Node.hosted := by
  rw [hostedMembers_eq, List.find?_map, Option.map_map, Option.map_map]
  rfl

theorem move_hosted {node place : Node} {move : Move} (h : node.move move = some place) :
    node.hosted.move move = some place.hosted := by
  cases move with
  | element index =>
    obtain ⟨length, hlength, h⟩ := Option.bind_eq_some_iff.mp h
    cases node with
    | array items =>
      have hsame : (Node.keyed (hostedItems 0 items)).length = (Node.array items).length :=
        length_hostedItems items
      rw [Node.hosted, Node.move, Node.element, hsame, hlength]
      simp only [Option.bind_eq_bind, Option.bind_some]
      have hitem : items[index]? = some place := h
      rw [hostedItems_getElem?, hitem]
      rfl
    | keyed members =>
      have hsame := length_congr (hostedMembers_keys members)
      rw [Node.hosted, Node.move, Node.element, hsame, hlength]
      simp only [Option.bind_eq_bind, Option.bind_some]
      rw [hostedMembers_eq, List.getElem?_map, Option.map_map]
      obtain ⟨member, hmember, rfl⟩ := Option.map_eq_some_iff.mp h
      rw [hmember]
      rfl
    | null | bool | number | string | object => cases h
  | member key =>
    cases node with
    | object members =>
      change (Node.keyed (hostedMembers members)).member key = some place.hosted
      rw [Node.member, find_hostedMembers]
      exact congrArg (Option.map Node.hosted) h
    | keyed members =>
      change (Node.keyed (hostedMembers members)).member key = some place.hosted
      rw [Node.member, find_hostedMembers]
      exact congrArg (Option.map Node.hosted) h
    | null | bool | number | string | array => cases h
  | listed index =>
    have hlisted : ∀ members : List (Key × Node), members[index]?.map Prod.snd = some place →
        (hostedMembers members)[index]?.map Prod.snd = some place.hosted := by
      intro members hmembers
      rw [hostedMembers_eq, List.getElem?_map, Option.map_map]
      obtain ⟨member, hmember, rfl⟩ := Option.map_eq_some_iff.mp hmembers
      rw [hmember]
      rfl
    cases node with
    | object members => exact hlisted members h
    | keyed members => exact hlisted members h
    | null | bool | number | string | array => cases h

theorem reach_hosted {node place : Node} {moves : List Move} (h : node.reach moves = some place) :
    node.hosted.reach moves = some place.hosted := by
  induction moves generalizing node with
  | nil =>
    cases h
    rfl
  | cons move moves ih =>
    obtain ⟨next, hnext, h⟩ := Option.bind_eq_some_iff.mp h
    have hrest := ih h
    rw [Node.reach, List.foldlM_cons, move_hosted hnext]
    exact hrest

theorem element_hosted (items : List Node) (index : ℕ) :
    ((Node.array items).hosted.element index).isSome =
      ((Node.array items).element index).isSome := by
  have hsame : (Node.keyed (hostedItems 0 items)).length = (Node.array items).length :=
    length_hostedItems items
  rw [Node.hosted, Node.element, Node.element, hsame]
  cases (Node.array items).length.filter (index < ·) with
  | none => rfl
  | some length =>
    simp only [Option.bind_eq_bind, Option.bind_some]
    rw [hostedItems_getElem?, Option.isSome_map, Option.isSome_map]

theorem answers_hosted (node : Node) : Answers node node.hosted := by
  have hmembers : ∀ members : List (Key × Node),
      (∀ key, ((Node.keyed (hostedMembers members)).member key).isSome =
        ((Node.keyed members).member key).isSome) := by
    intro members key
    rw [Node.member, Node.member, find_hostedMembers, Option.isSome_map]
  constructor
  · rintro items rfl
    exact ⟨length_hostedItems items, element_hosted items⟩
  · intro hobject
    cases node with
    | object members => exact ⟨rfl, hmembers members, hostedMembers_keys members⟩
    | keyed members => exact ⟨rfl, hmembers members, hostedMembers_keys members⟩
    | null | bool | number | string | array => cases hobject
  · intro hobject harray
    cases node with
    | array items => exact absurd rfl (harray items)
    | object | keyed => cases hobject
    | null | bool | number | string => rfl

end Places

section Trees

theorem nodes_append {form : Form} {one other : List Doc} {ns ms : List Node}
    (h : nodes form one = .ok ns) (k : nodes form other = .ok ms) :
    nodes form (one ++ other) = .ok (ns ++ ms) := by
  induction one generalizing ns with
  | nil =>
    cases h
    exact k
  | cons d ds ih =>
    rw [nodes] at h
    obtain ⟨n, hn, h⟩ := bind_eq_ok.mp h
    obtain ⟨rest, hrest, h⟩ := bind_eq_ok.mp h
    cases h
    rw [List.cons_append, nodes, hn, ih hrest]
    rfl

theorem memberNodes_append {form : Form} {one other : List (Text × Doc)}
    {ns ms : List (Key × Node)} (h : memberNodes form one = .ok ns)
    (k : memberNodes form other = .ok ms) :
    memberNodes form (one ++ other) = .ok (ns ++ ms) := by
  induction one generalizing ns with
  | nil =>
    cases h
    exact k
  | cons m ds ih =>
    obtain ⟨key, d⟩ := m
    rw [memberNodes] at h
    obtain ⟨said, hsaid, h⟩ := bind_eq_ok.mp h
    obtain ⟨n, hn, h⟩ := bind_eq_ok.mp h
    obtain ⟨rest, hrest, h⟩ := bind_eq_ok.mp h
    cases h
    rw [List.cons_append, memberNodes, hsaid, hn, ih hrest]
    rfl

theorem member_node {form : Form} {key : Text} {d : Doc} (hkey : IsText key.written)
    (hd : ∃ n, node form d = .ok n) : ∃ ns, memberNodes form [(key, d)] = .ok ns := by
  obtain ⟨cs, hcs⟩ := hkey
  obtain ⟨n, hn⟩ := hd
  rw [memberNodes, bytes_spells hcs, hn]
  exact ⟨_, rfl⟩

theorem item_node {form : Form} {d : Doc} (hd : ∃ n, node form d = .ok n) :
    ∃ ns, nodes form [d] = .ok ns := by
  obtain ⟨n, hn⟩ := hd
  rw [nodes, hn]
  exact ⟨_, rfl⟩

theorem writes_node (form : Form) {d : Doc} {b : Bytes} (h : Writes d b) :
    ∃ n, node form d = .ok n := by
  refine @Writes.rec (fun d _ _ => ∃ n, node form d = .ok n)
    (fun ds _ _ => ∃ ns, nodes form ds = .ok ns)
    (fun ms _ _ => ∃ ns, memberNodes form ms = .ok ns) ⟨_, rfl⟩ ⟨_, rfl⟩ ⟨_, rfl⟩
    (fun _ => ⟨_, rfl⟩) ?_ (fun _ => ⟨_, rfl⟩) ?_ (fun _ => ⟨_, rfl⟩) ?_ ?_ ?_ ?_ ?_ d b h
  · rintro text ⟨cs, hcs⟩
    rw [node, bytes_spells hcs]
    exact ⟨_, rfl⟩
  · rintro items _ _ _ _ ⟨ns, hns⟩
    rw [node, hns]
    exact ⟨_, rfl⟩
  · rintro members _ _ _ _ ⟨ns, hns⟩
    rw [node, hns]
    exact ⟨_, rfl⟩
  · rintro _ _ d _ _ hd
    exact item_node hd
  · rintro ds _ _ _ _ d _ _ _ _ ⟨ns, hns⟩ hd
    obtain ⟨ms, hms⟩ := item_node hd
    exact ⟨_, nodes_append hns hms⟩
  · rintro key d _ _ _ _ _ hkey _ _ _ hd
    exact member_node hkey hd
  · rintro ms key d _ _ _ _ _ _ _ _ _ hkey _ _ _ ⟨ns, hns⟩ hd
    obtain ⟨last, hlast⟩ := member_node hkey hd
    exact ⟨_, memberNodes_append hns hlast⟩

end Trees

/-- A document read as text, and what a host hands over for it read as a host's value, answer the
same at every place the same steps reach. A host's map has a length exactly where its keys are its
indices in order. -/
theorem host_reads_as_text {d : Doc} {bytes bytes' : Bytes} (h : Document d bytes)
    (h' : Document (hostDoc d) bytes') (hdeep : d.depth ≤ deepest) :
    ∃ text host, parsed bytes .text = .ok (.ok text) ∧ parsed bytes' .hostValue = .ok (.ok host) ∧
      (∀ moves place, text.reach moves = some place →
        ∃ place', host.reach moves = some place' ∧ Answers place place') ∧
      ∀ members length, (Node.keyed members).length = some length ↔
        (members.map fun member => member.1.written) = (List.range length).map indexKey := by
  obtain ⟨n, hn⟩ : ∃ n, node .text d = .ok n := by
    obtain ⟨w, b, v, -, -, hd, -⟩ := h
    exact writes_node .text hd
  have hhost : node .hostValue (hostDoc d) = .ok n.hosted := by
    rw [node_hostDoc, hn]
    rfl
  have hdeep' : (hostDoc d).depth ≤ deepest := (depth_hostDoc d).le.trans hdeep
  refine ⟨n, n.hosted, parsed_document h hdeep hn, parsed_document h' hdeep' hhost, ?_,
    length_keyed⟩
  intro moves place hreach
  exact ⟨place.hosted, reach_hosted hreach, answers_hosted place⟩

/-- The key `a`, and `[null,{"a":true}]` with what a host hands over for it. -/
def aKey : Text := ⟨encode ['a']⟩

def nullAndObject : Doc := .array [.null, .object [(aKey, .bool true)]]

def objectText : Bytes := byte '{' :: quoted aKey ++ byte ':' :: word "true" ++ [byte '}']

def nullAndObjectText : Bytes := byte '[' :: (word "null" ++ byte ',' :: objectText) ++ [byte ']']

def nullAndObjectHosted : Bytes :=
  byte '{' :: (quoted ⟨indexKey 0⟩ ++ byte ':' :: word "null" ++ byte ',' ::
    quoted ⟨indexKey 1⟩ ++ byte ':' :: objectText) ++ [byte '}']

theorem spells_aKey : Spells aKey.written ['a'] := by
  refine plain_spells fun c hc => ?_
  rw [List.mem_singleton.mp hc]
  decide

theorem isText_indexKey (index : ℕ) : IsText (indexKey index) :=
  ⟨_, plain_spells fun _ hc =>
    digit_plain (Nat.isDigit_of_mem_toDigits (by decide) (by decide) hc)⟩

theorem writes_objectText : Writes (.object [(aKey, .bool true)]) objectText := by
  have hmembers := @Members.one aKey (.bool true) [] [] [] _ nofun ⟨_, spells_aKey⟩ nofun nofun .true
  have hwrites := Writes.object hmembers (w := []) nofun
  simpa [objectText] using hwrites

theorem nullAndObject_text : Document nullAndObject nullAndObjectText := by
  have hitems := Elements.more (.one (w := []) nofun .null) (w := []) (v := []) nofun nofun
    writes_objectText
  have hwrites := Writes.array hitems (w := []) nofun
  refine ⟨[], _, [], ?_, nofun, hwrites, nofun⟩
  simp [nullAndObjectText]

theorem nullAndObject_hosted : Document (hostDoc nullAndObject) nullAndObjectHosted := by
  have hfirst := @Members.one ⟨indexKey 0⟩ .null [] [] [] _ nofun (isText_indexKey 0) nofun nofun
    .null
  have hmembers := @Members.more _ ⟨indexKey 1⟩ _ _ [] [] [] [] _ hfirst nofun nofun
    (isText_indexKey 1) nofun nofun writes_objectText
  have hwrites := Writes.object hmembers (w := []) nofun
  refine ⟨[], _, [], ?_, nofun, hwrites, nofun⟩
  simp [nullAndObjectHosted]

theorem node_nullAndObject :
    node .text nullAndObject = .ok (.array [.null, .object [(⟨encode ['a']⟩, .bool true)]]) := by
  have hobject : node .text (.object [(aKey, .bool true)]) =
      .ok (.object [(⟨encode ['a']⟩, .bool true)]) := by
    rw [node, memberNodes, bytes_spells spells_aKey]
    rfl
  rw [nullAndObject, node, nodes, nodes, hobject]
  rfl

/-- What a host hands over for an array of two is read as one, and the member of the object it ends
with as the text's. -/
theorem host_reads_as_text_two :
    ∃ host, parsed nullAndObjectHosted .hostValue = .ok (.ok host) ∧ host.length = some 2 ∧
      host.reach [.element 1, .member (encode ['a'])] = some (.bool true) := by
  obtain ⟨text, host, hparsed, hread, hplaces, -⟩ :=
    host_reads_as_text nullAndObject_text nullAndObject_hosted (by decide)
  obtain rfl : text = .array [.null, .object [(⟨encode ['a']⟩, .bool true)]] := by
    have htree := parsed_document nullAndObject_text (by decide) node_nullAndObject
    rw [hparsed] at htree
    exact Except.ok.inj (Except.ok.inj htree)
  obtain ⟨whole, hwhole, hanswers⟩ := hplaces [] _ rfl
  cases hwhole
  obtain ⟨truth, htruth, hsame⟩ := hplaces [.element 1, .member (encode ['a'])] (.bool true) rfl
  rw [hsame.scalar rfl (fun _ h => by cases h)] at htruth
  exact ⟨_, hread, (hanswers.array _ rfl).1, htruth⟩

end SoutherNative.Document
