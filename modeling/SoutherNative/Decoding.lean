import Mathlib
import SoutherNative.Collection
import SoutherNative.Document
import SoutherNative.HostSymbols

set_option autoImplicit false

/-!
# Reading a value off a document

A reader refuses what is not what it was declared as, recording an issue at its place, and goes on
to what stands beside it. What is made of several parts is made where each was read whole: a set of
its elements, a map of its members, whose values are all read before any of its keys.
-/
namespace SoutherNative.Decoding

open AssociationList HashTrie Collection Utf8
open Document (Node Key)

inductive LeafScalar
  | int | bool | string | decimal | date | time | dateTime | instant
  deriving DecidableEq

inductive Leaf (N : Type)
  | scalar (scalar : LeafScalar)
  | named (named : N)

inductive MapKey (N : Type)
  | text | date | time | dateTime | instant
  | namedKey (named : N)

def MapKey.shape {N : Type} : MapKey N → Leaf N
  | .text => .scalar .string
  | .date => .scalar .date
  | .time => .scalar .time
  | .dateTime => .scalar .dateTime
  | .instant => .scalar .instant
  | .namedKey named => .named named

inductive CodecShape (N : Type)
  | leaf (leaf : Leaf N)
  | listOf (element : CodecShape N)
  | setOf (element : CodecShape N)
  | mapOf (key : MapKey N) (value : CodecShape N)
  | optionOf (present : CodecShape N)

def Of {N : Type} (Held : Leaf N → Type) : CodecShape N → Type
  | .leaf leaf => Held leaf
  | .listOf element => List (Of Held element)
  | .setOf element => Collection.Set (Of Held element)
  | .mapOf key value => Collection.Map (Held key.shape) (Of Held value)
  | .optionOf present => Option (Of Held present)

inductive Step
  | member (written : Bytes)
  | element (index : ℕ)
  deriving DecidableEq

abbrev Path := List Step

structure Issue where
  code : String
  path : Path
  deriving DecidableEq

abbrev Status := ℕ

abbrev LeafRead (A : Type) := Except Status (Option A) × List Issue

/-- How the leaves of a program are held and read, and how the values of its types compare and
hash. -/
structure Language (N : Type) where
  Held : Leaf N → Type
  read : (leaf : Leaf N) → Node → Path → LeafRead (Held leaf)
  hash : (shape : CodecShape N) → Of Held shape → BitVec 64
  equal : (shape : CodecShape N) → Of Held shape → Of Held shape → Bool
  equivalence : ∀ key : MapKey N,
    Equivalence fun a b : Held key.shape => equal (.leaf key.shape) a b = true
  hash_of_equal : ∀ (key : MapKey N) (a b : Held key.shape),
    equal (.leaf key.shape) a b = true → hash (.leaf key.shape) a = hash (.leaf key.shape) b

/-- `Node::is_object`. -/
def isObject : Node → Bool
  | .object _ | .keyed _ => true
  | _ => false

/-- `Node::members`. -/
def membersOf : Node → List (Key × Node)
  | .object members | .keyed members => members
  | _ => []

/-- `Node::length` and `Node::element`: a host's map is an array where its keys are its indices in
order. -/
def elementsOf : Node → Option (List Node)
  | .array items => some items
  | .keyed members =>
    if members.zipIdx.all fun member =>
        member.1.1.written = encode (Nat.toDigits 10 member.2)
    then some (members.map Prod.snd) else none
  | _ => none

def placeOf (path : Path) (member : Key × Node) : Path := path ++ [.member member.1.written]

/-- `Key::node`. -/
def nodeOf (key : Key) : Node := .string key.written

/-- What was read so far: whether anything was refused, and the issues recorded. -/
structure State where
  refused : Bool
  issues : List Issue

inductive Halt
  | aborted (status : Status)
  | unread
  | unwritten (map : Path)
  deriving DecidableEq

abbrev Reader (A : Type) := State → Except Halt (A × State)

section Readers

variable {A B : Type}

def answer (a : A) : Reader A := fun state => .ok (a, state)

def andThen (read : Reader A) (next : A → Reader B) : Reader B := fun state =>
  match read state with
  | .error halt => .error halt
  | .ok (a, state') => next a state'

def record (issue : Issue) : Reader Unit := fun state =>
  .ok ((), { state with issues := state.issues ++ [issue] })

/-- `refuse_where`. -/
def refuseWhere (failed : Bool) : Reader Unit := fun state =>
  .ok ((), { state with refused := state.refused || failed })

def refuse : Reader Unit := refuseWhere true

/-- `mismatched`. -/
def mismatched (node : Node) (path : Path) : Reader Unit :=
  record ⟨match node with
    | .null => "required"
    | _ => "type_mismatch", path⟩

/-- `own`: what is read, and whether anything of it was refused. -/
def own (read : Reader A) : Reader (A × Bool) := fun state =>
  match read { state with refused := false } with
  | .error halt => .error halt
  | .ok (a, state') =>
    .ok ((a, state'.refused), { state' with refused := state.refused || state'.refused })

/-- `built_where`. -/
def builtWhere (own : Bool) (build : Reader (Option B)) : Reader (Option B) :=
  if own then answer none else build

def handed (read : Option A) : Reader A :=
  match read with
  | some a => answer a
  | none => fun _ => .error .unread

end Readers

section Reading

variable {N : Type} (language : Language N)

/-- `value` of a scalar or a declaration: refused where nothing was read. -/
def leafValue (leaf : Leaf N) (node : Node) (path : Path) : Reader (Option (language.Held leaf)) :=
  fun state =>
    let (read, issues) := language.read leaf node path
    match read with
    | .error status => .error (.aborted status)
    | .ok held => .ok (held,
        { refused := state.refused || held.isNone, issues := state.issues ++ issues })

def each {A B : Type} (read : A → Reader B) : List A → Reader (List B)
  | [] => answer []
  | part :: parts => andThen (read part) fun b =>
      andThen (each read parts) fun bs => answer (b :: bs)

section Keys

variable {V : Type} (key : MapKey N) (path : Path)

def keysInto : List ((Key × Node) × Option V) → Collection.Map (language.Held key.shape) V →
    Reader (Collection.Map (language.Held key.shape) V)
  | [], map => answer map
  | (member, held) :: rest, map =>
    andThen (own (leafValue language key.shape (nodeOf member.1) (placeOf path member)))
      fun (readKey, keyOwn) =>
    if keyOwn then keysInto rest map
    else andThen (handed readKey) fun k =>
      if mapContainsKey (language.hash (.leaf key.shape)) (language.equal (.leaf key.shape)) map k
      then
        andThen (record ⟨"duplicate_key", placeOf path member⟩) fun _ =>
        andThen refuse fun _ => keysInto rest map
      else andThen (handed held) fun v =>
        -- What the insertion answers is not read, and its room is.
        match mapInsert (language.hash (.leaf key.shape)) (language.equal (.leaf key.shape)) map k v
        with
        | some grown => keysInto rest grown
        | none => fun _ => .error (.unwritten path)

/-- `map`, over the reader of its values. -/
def mapOf (value : Node → Path → Reader (Option V)) (node : Node) :
    Reader (Option (Collection.Map (language.Held key.shape) V)) :=
  if isObject node then
    andThen (own (each (fun member : Key × Node => value member.2 (placeOf path member))
      (membersOf node))) fun (values, valuesOwn) =>
    builtWhere valuesOwn
      (andThen (own (keysInto language key path ((membersOf node).zip values) mapEmpty))
        fun (map, keysOwn) => builtWhere keysOwn (answer (some map)))
  else andThen (mismatched node path) fun _ => andThen refuse fun _ => answer none

end Keys

/-- `list`, over the reader of its elements. -/
def listOf {V : Type} (value : Node → Path → Reader (Option V)) (node : Node) (path : Path) :
    Reader (Option (List (Option V))) :=
  match elementsOf node with
  | none => andThen (mismatched node path) fun _ => andThen refuse fun _ => answer none
  | some items => andThen (each (fun item : Node × ℕ =>
      value item.1 (path ++ [.element item.2])) items.zipIdx) fun values => answer (some values)

def wholly {V : Type} (list : Option (List (Option V))) : Option (List V) :=
  list.bind fun values => values.mapM id

section Containers

variable {V : Type} (value : Node → Path → Reader (Option V)) (node : Node) (path : Path)

def list : Reader (Option (List V)) :=
  andThen (listOf value node path) fun list => answer (wholly list)

/-- `set`, by the hasher and the equality of its elements. -/
def set (hash : V → BitVec 64) (equal : V → V → Bool) : Reader (Option (Collection.Set V)) :=
  andThen (own (listOf value node path)) fun (list, listOwn) =>
  builtWhere listOwn (andThen (handed (wholly list)) fun elements => answer (some
    (elements.foldl (fun set element => set.with equal (member hash element) .keep) EMPTY)))

/-- `value` of an optional: absence is `null`. -/
def option : Reader (Option (Option V)) :=
  match node with
  | .null => answer (some none)
  | node => andThen (value node path) fun inner => answer (inner.map some)

end Containers

/-- `value`. -/
def value : (shape : CodecShape N) → Node → Path → Reader (Option (Of language.Held shape))
  | .leaf leaf, node, path => leafValue language leaf node path
  | .listOf element, node, path => list (value element) node path
  | .setOf element, node, path =>
    set (value element) node path (language.hash element) (language.equal element)
  | .mapOf key held, node, path => mapOf language key path (value held) node
  | .optionOf present, node, path => option (value present) node path

end Reading

def fresh : State := ⟨false, []⟩

def State.after (state later : State) : State :=
  ⟨state.refused || later.refused, state.issues ++ later.issues⟩

@[simp] theorem State.fresh_after (state : State) : fresh.after state = state := by
  simp [State.after, fresh]

@[simp] theorem State.after_fresh (state : State) : state.after fresh = state := by
  simp [State.after, fresh]

theorem State.after_after (one two three : State) :
    (one.after two).after three = one.after (two.after three) := by
  simp [State.after, Bool.or_assoc]

def later {A : Type} (state : State) : Except Halt (A × State) → Except Halt (A × State)
  | .error halt => .error halt
  | .ok (a, state') => .ok (a, state.after state')

@[simp] theorem later_error {A : Type} (state : State) (halt : Halt) :
    later state (.error halt : Except Halt (A × State)) = .error halt := rfl

@[simp] theorem later_ok {A : Type} (state state' : State) (a : A) :
    later state (.ok (a, state')) = .ok (a, state.after state') := rfl

theorem later_later {A : Type} (one two : State) (read : Except Halt (A × State)) :
    later one (later two read) = later (one.after two) read := by
  cases read with
  | error halt => rfl
  | ok read => rw [later_ok, later_ok, later_ok, State.after_after]

def Framed {A : Type} (read : Reader A) : Prop := ∀ state, read state = later state (read fresh)

section Framed

variable {A B : Type}

theorem answer_andThen (a : A) (next : A → Reader B) : andThen (answer a) next = next a := rfl

theorem framed_answer (a : A) : Framed (answer a) := by
  intro state
  simp [answer]

theorem framed_record (issue : Issue) : Framed (record issue) := by
  intro state
  simp [record, fresh, State.after]

theorem framed_refuseWhere (failed : Bool) : Framed (refuseWhere failed) := by
  intro state
  simp [refuseWhere, fresh, State.after]

theorem framed_error (halt : Halt) : Framed (fun _ => .error halt : Reader A) := fun _ => rfl

theorem andThen_fresh {read : Reader A} {next : A → Reader B} (h : ∀ a, Framed (next a)) :
    andThen read next fresh =
      match read fresh with
      | .error halt => .error halt
      | .ok (a, state) => later state (next a fresh) := by
  unfold andThen
  cases read fresh with
  | error halt => rfl
  | ok read => exact h read.1 read.2

theorem framed_andThen {read : Reader A} {next : A → Reader B} (hread : Framed read)
    (hnext : ∀ a, Framed (next a)) : Framed (andThen read next) := by
  intro state
  rw [andThen_fresh hnext, andThen, hread state]
  cases read fresh with
  | error halt => rfl
  | ok read =>
    obtain ⟨a, state'⟩ := read
    simp only [later_ok]
    rw [hnext a (state.after state'), later_later]

theorem own_fresh (read : Reader A) :
    own read fresh =
      match read fresh with
      | .error halt => .error halt
      | .ok (a, state) => .ok ((a, state.refused), state) := by
  unfold own
  have hfresh : ({ fresh with refused := false } : State) = fresh := rfl
  rw [hfresh]
  cases read fresh with
  | error halt => rfl
  | ok read => simp [fresh]

theorem framed_own {read : Reader A} (h : Framed read) : Framed (own read) := by
  intro state
  rw [own_fresh, own, h { state with refused := false }]
  cases read fresh with
  | error halt => rfl
  | ok read =>
    obtain ⟨a, state'⟩ := read
    simp [State.after]

theorem framed_builtWhere {build : Reader (Option B)} (h : Framed build) (own : Bool) :
    Framed (builtWhere own build) := by
  unfold builtWhere
  split_ifs
  · exact framed_answer none
  · exact h

theorem framed_handed (read : Option A) : Framed (handed read) := by
  cases read with
  | none => exact framed_error .unread
  | some a => exact framed_answer a

theorem framed_each {read : A → Reader B} (h : ∀ a, Framed (read a)) (parts : List A) :
    Framed (each read parts) := by
  induction parts with
  | nil => exact framed_answer []
  | cons part parts ih =>
    exact framed_andThen (h part) fun b => framed_andThen ih fun bs => framed_answer (b :: bs)

end Framed

section Sound

variable {N : Type} (language : Language N)

theorem leafValue_fresh (leaf : Leaf N) (node : Node) (path : Path) :
    leafValue language leaf node path fresh =
      match language.read leaf node path with
      | (.error status, _) => .error (.aborted status)
      | (.ok held, issues) => .ok (held, ⟨held.isNone, issues⟩) := by
  unfold leafValue
  rcases language.read leaf node path with ⟨status | held, issues⟩
  · rfl
  · simp [fresh]

theorem framed_leafValue (leaf : Leaf N) (node : Node) (path : Path) :
    Framed (leafValue language leaf node path) := by
  intro state
  rw [leafValue_fresh, leafValue]
  rcases language.read leaf node path with ⟨status | held, issues⟩
  · rfl
  · rfl

theorem framed_keysInto {V : Type} (key : MapKey N) (path : Path)
    (members : List ((Key × Node) × Option V))
    (map : Collection.Map (language.Held key.shape) V) :
    Framed (keysInto language key path members map) := by
  induction members generalizing map with
  | nil => exact framed_answer map
  | cons member rest ih =>
    obtain ⟨member, held⟩ := member
    unfold keysInto
    apply framed_andThen
    · exact framed_own (framed_leafValue language _ _ _)
    · rintro ⟨readKey, keyOwn⟩
      simp only
      split_ifs
      · exact ih map
      · apply framed_andThen
        · exact framed_handed readKey
        · intro k
          split_ifs
          · exact framed_andThen (framed_record _) fun _ =>
              framed_andThen (framed_refuseWhere true) fun _ => ih map
          · apply framed_andThen
            · exact framed_handed held
            · intro v
              cases mapInsert (language.hash (.leaf key.shape))
                (language.equal (.leaf key.shape)) map k v with
              | none => exact framed_error (.unwritten path)
              | some grown => exact ih grown

theorem framed_mismatched (node : Node) (path : Path) {A : Type} :
    Framed (andThen (mismatched node path) fun _ => andThen refuse fun _ =>
      answer (none : Option A)) :=
  framed_andThen (framed_record _) fun _ =>
    framed_andThen (framed_refuseWhere true) fun _ => framed_answer none

theorem framed_mapOf {V : Type} (key : MapKey N) (path : Path)
    {value : Node → Path → Reader (Option V)} (h : ∀ node path, Framed (value node path))
    (node : Node) : Framed (mapOf language key path value node) := by
  unfold mapOf
  split_ifs
  · apply framed_andThen
    · exact framed_own (framed_each (fun member => h _ _) _)
    · rintro ⟨values, valuesOwn⟩
      apply framed_builtWhere
      apply framed_andThen
      · exact framed_own (framed_keysInto language key path _ _)
      · rintro ⟨map, keysOwn⟩
        exact framed_builtWhere (framed_answer _) keysOwn
  · exact framed_mismatched node path

theorem framed_listOf {V : Type} {value : Node → Path → Reader (Option V)}
    (h : ∀ node path, Framed (value node path)) (node : Node) (path : Path) :
    Framed (listOf value node path) := by
  unfold listOf
  cases elementsOf node with
  | none => exact framed_mismatched node path
  | some items =>
    exact framed_andThen (framed_each (fun item => h _ _) _) fun values => framed_answer _

theorem framed_set {V : Type} {value : Node → Path → Reader (Option V)}
    (h : ∀ node path, Framed (value node path)) (node : Node) (path : Path)
    (hash : V → BitVec 64) (equal : V → V → Bool) : Framed (set value node path hash equal) := by
  apply framed_andThen
  · exact framed_own (framed_listOf h node path)
  · rintro ⟨list, listOwn⟩
    exact framed_builtWhere (framed_andThen (framed_handed _) fun elements => framed_answer _)
      listOwn

theorem framed_option {V : Type} {value : Node → Path → Reader (Option V)}
    (h : ∀ node path, Framed (value node path)) (node : Node) (path : Path) :
    Framed (option value node path) := by
  unfold option
  split
  · exact framed_answer _
  · exact framed_andThen (h _ _) fun inner => framed_answer _

end Sound

section KeysOf

variable {N : Type} (language : Language N) {V : Type} (key : MapKey N) (path : Path)

def keyRead (member : Key × Node) : LeafRead (language.Held key.shape) :=
  language.read key.shape (nodeOf member.1) (placeOf path member)

abbrev keysEqual (a b : language.Held key.shape) : Bool := language.equal (.leaf key.shape) a b

def duplicate (member : Key × Node) : Issue := ⟨"duplicate_key", placeOf path member⟩

def keysPut : List ((Key × Node) × V) → List (language.Held key.shape × V) →
    Except Halt (List (language.Held key.shape × V) × State)
  | [], entries => .ok (entries, fresh)
  | (member, held) :: rest, entries =>
    match keyRead language key path member with
    | (.error status, _) => .error (.aborted status)
    | (.ok none, issues) => later ⟨true, issues⟩ (keysPut rest entries)
    | (.ok (some k), issues) =>
      if holds (keysEqual language key) entries k then
        later ⟨true, issues ++ [duplicate path member]⟩ (keysPut rest entries)
      else if entries.length + 1 ≤ HOLDS then
        later ⟨false, issues⟩ (keysPut rest (entries ++ [(k, held)]))
      else .error (.unwritten path)

def given (members : List ((Key × Node) × V)) : List ((Key × Node) × Option V) :=
  members.map fun member => (member.1, some member.2)

def Alike (put : Except Halt (List (language.Held key.shape × V) × State))
    (walked : Except Halt (Collection.Map (language.Held key.shape) V × State)) : Prop :=
  match put with
  | .error halt => walked = .error halt
  | .ok (entries, state) => ∃ map, walked = .ok (map, state) ∧
      Refines (language.hash (.leaf key.shape)) (keysEqual language key) map entries

variable {language key} in
theorem Alike.later {put : Except Halt (List (language.Held key.shape × V) × State)}
    {walked : Except Halt (Collection.Map (language.Held key.shape) V × State)}
    (h : Alike language key put walked) (state : State) :
    Alike language key (Decoding.later state put) (Decoding.later state walked) := by
  cases put with
  | error halt =>
    cases h
    rfl
  | ok put =>
    obtain ⟨map, rfl, hrefines⟩ := h
    exact ⟨map, rfl, hrefines⟩

theorem keysInto_cons (member : Key × Node) (held : V) (rest : List ((Key × Node) × V))
    (map : Collection.Map (language.Held key.shape) V) :
    keysInto language key path (given ((member, held) :: rest)) map fresh =
      match keyRead language key path member with
      | (.error status, _) => .error (.aborted status)
      | (.ok none, issues) => later ⟨true, issues⟩
          (keysInto language key path (given rest) map fresh)
      | (.ok (some k), issues) =>
        if mapContainsKey (language.hash (.leaf key.shape)) (keysEqual language key) map k then
          later ⟨true, issues ++ [duplicate path member]⟩
            (keysInto language key path (given rest) map fresh)
        else
          match mapInsert (language.hash (.leaf key.shape)) (keysEqual language key) map k held with
          | some grown => later ⟨false, issues⟩
              (keysInto language key path (given rest) grown fresh)
          | none => .error (.unwritten path) := by
  have hframed (map) : Framed (keysInto language key path (given rest) map) :=
    framed_keysInto language key path (given rest) map
  have hgiven : given ((member, held) :: rest) = (member, some held) :: given rest := rfl
  have hread : language.read key.shape (nodeOf member.1) (placeOf path member) =
      keyRead language key path member := rfl
  rw [hgiven, keysInto, andThen, own_fresh, leafValue_fresh, hread]
  rcases keyRead language key path member with ⟨status | ⟨⟩ | k, issues⟩
  · rfl
  · exact hframed map ⟨true, issues⟩
  · simp only [Option.isNone_some, Bool.false_eq_true, if_false, handed, answer_andThen]
    split_ifs with hin
    · exact hframed map _
    · cases mapInsert (language.hash (.leaf key.shape)) (language.equal (.leaf key.shape)) map k
        held with
      | none => rfl
      | some grown => exact hframed grown _

theorem keysInto_alike (members : List ((Key × Node) × V))
    {entries : List (language.Held key.shape × V)}
    {map : Collection.Map (language.Held key.shape) V}
    (h : Refines (language.hash (.leaf key.shape)) (keysEqual language key) map entries)
    (hheld : entries.length ≤ HOLDS) :
    Alike language key (keysPut language key path members entries)
      (keysInto language key path (given members) map fresh) := by
  have he := language.equivalence key
  have hh := language.hash_of_equal key
  induction members generalizing entries map with
  | nil => exact ⟨map, rfl, h⟩
  | cons member rest ih =>
    obtain ⟨member, held⟩ := member
    rw [keysInto_cons, keysPut]
    rcases keyRead language key path member with ⟨status | ⟨⟩ | k, issues⟩
    · rfl
    · exact (ih h hheld).later _
    · have hholds : mapContainsKey (language.hash (.leaf key.shape)) (keysEqual language key) map k =
          holds (keysEqual language key) entries k := (h.find he hh k).2
      simp only [hholds]
      by_cases hin : holds (keysEqual language key) entries k = true
      · rw [if_pos hin, if_pos hin]
        exact (ih h hheld).later _
      · rw [if_neg hin, if_neg hin]
        have hroom : entries.length + 1 < 2 ^ 63 := by
          have : HOLDS = 2 ^ 31 - 1 := rfl
          omega
        have hput : Collection.put (keysEqual language key) .takeValue entries k held =
            entries ++ [(k, held)] := put_of_not_holds (by simpa using hin)
        have hgrown : Refines (language.hash (.leaf key.shape)) (keysEqual language key)
            (map.with (keysEqual language key) ⟨language.hash (.leaf key.shape) k, k, held⟩
              .takeValue) (entries ++ [(k, held)]) :=
          hput ▸ h.with he hh .takeValue k held hroom
        have hlength : (entries ++ [(k, held)]).length = entries.length + 1 := List.length_append
        have hsize := hgrown.size.trans hlength
        unfold mapInsert Collection.held
        rw [hsize]
        by_cases hle : entries.length + 1 ≤ HOLDS
        · rw [if_pos hle, if_pos hle]
          exact (ih hgrown (hlength.trans_le hle)).later _
        · rw [if_neg hle, if_neg hle]
          rfl

end KeysOf

section Put

variable {N : Type} (language : Language N) {V : Type} (key : MapKey N) (path : Path)

def KeyReads (member : Key × Node) (k : language.Held key.shape) : Prop :=
  (keyRead language key path member).1 = .ok (some k)

def keysRead : List (Key × Node) → List (language.Held key.shape)
  | [] => []
  | member :: rest =>
    match (keyRead language key path member).1 with
    | .error _ => []
    | .ok none => keysRead rest
    | .ok (some k) => k :: keysRead rest

def different (members : List (Key × Node)) : ℕ :=
  ((keysRead language key path members).foldl
    (insertMember (keysEqual language key)) []).length

def keyIssues : List (Key × Node) → List (language.Held key.shape) → List Issue
  | [], _ => []
  | member :: rest, before =>
    match keyRead language key path member with
    | (.error _, issues) => issues
    | (.ok none, issues) => issues ++ keyIssues rest before
    | (.ok (some k), issues) =>
      issues ++ (if before.any fun earlier => keysEqual language key earlier k
        then [duplicate path member] else []) ++ keyIssues rest (before ++ [k])

theorem later_eq_error {A : Type} {state : State} {read : Except Halt (A × State)} {halt : Halt} :
    later state read = .error halt ↔ read = .error halt := by
  cases read with
  | error other => simp
  | ok read => simp [later]

theorem later_eq_ok {A : Type} {state whole : State} {read : Except Halt (A × State)} {a : A} :
    later state read = .ok (a, whole) ↔
      ∃ own, read = .ok (a, own) ∧ whole = state.after own := by
  cases read with
  | error halt => simp
  | ok read =>
    obtain ⟨b, own⟩ := read
    simp only [later_ok, Except.ok.injEq, Prod.mk.injEq]
    constructor
    · rintro ⟨rfl, rfl⟩
      exact ⟨own, ⟨rfl, rfl⟩, rfl⟩
    · rintro ⟨other, ⟨rfl, rfl⟩, rfl⟩
      exact ⟨rfl, rfl⟩

variable {language key path}

theorem keysPut_fed (members : List ((Key × Node) × V))
    (entries : List (language.Held key.shape × V)) :
    keysPut language key path members entries ≠ .error .unread := by
  induction members generalizing entries with
  | nil => simp [keysPut]
  | cons member rest ih =>
    obtain ⟨member, held⟩ := member
    rw [keysPut]
    rcases keyRead language key path member with ⟨status | ⟨⟩ | k, issues⟩
    · simp
    · exact fun h => ih entries (later_eq_error.mp h)
    · simp only
      split_ifs
      · exact fun h => ih entries (later_eq_error.mp h)
      · exact fun h => ih _ (later_eq_error.mp h)
      · simp

theorem keysPut_unwritten_path {members : List ((Key × Node) × V)}
    {entries : List (language.Held key.shape × V)} {map : Path}
    (h : keysPut language key path members entries = .error (.unwritten map)) : map = path := by
  induction members generalizing entries with
  | nil => simp [keysPut] at h
  | cons member rest ih =>
    obtain ⟨member, held⟩ := member
    rw [keysPut] at h
    revert h
    rcases keyRead language key path member with ⟨status | ⟨⟩ | k, issues⟩
    · simp
    · exact fun h => ih (later_eq_error.mp h)
    · simp only
      split_ifs
      · exact fun h => ih (later_eq_error.mp h)
      · exact fun h => ih (later_eq_error.mp h)
      · intro h
        cases h
        rfl

/-- Where nothing was refused, every key was read whole and is another than those before it. -/
theorem keysPut_whole {members : List ((Key × Node) × V)}
    {entries after : List (language.Held key.shape × V)} {state : State}
    (h : keysPut language key path members entries = .ok (after, state))
    (hwhole : state.refused = false) (hd : Distinct (keysEqual language key) entries) :
    ∃ keys, List.Forall₂ (KeyReads language key path) (members.map Prod.fst) keys ∧
      after = entries ++ keys.zip (members.map Prod.snd) ∧
      Distinct (keysEqual language key) after := by
  induction members generalizing entries state with
  | nil =>
    cases h
    exact ⟨[], .nil, by simp, hd⟩
  | cons member rest ih =>
    obtain ⟨member, held⟩ := member
    rw [keysPut] at h
    rcases hread : keyRead language key path member with ⟨status | ⟨⟩ | k, issues⟩
    · rw [hread] at h
      cases h
    · rw [hread] at h
      obtain ⟨own, -, rfl⟩ := later_eq_ok.mp h
      simp [State.after] at hwhole
    · rw [hread] at h
      simp only at h
      split_ifs at h with hin hle
      · obtain ⟨own, -, rfl⟩ := later_eq_ok.mp h
        simp [State.after] at hwhole
      · obtain ⟨own, hrest, rfl⟩ := later_eq_ok.mp h
        have hfree := holds_eq_false.mp (Bool.not_eq_true _ ▸ hin)
        have hgrown : Distinct (keysEqual language key) (entries ++ [(k, held)]) := by
          apply List.pairwise_append.mpr
          refine ⟨hd, List.pairwise_singleton _ _, ?_⟩
          intro p hp q hq
          cases List.mem_singleton.mp hq
          exact hfree p hp
        obtain ⟨keys, hkeys, hafter, hdistinct⟩ := ih hrest (by simpa [State.after] using hwhole)
          hgrown
        refine ⟨k :: keys, .cons ?_ hkeys, ?_, hdistinct⟩
        · rw [KeyReads, hread]
        · simp [hafter]

/-- Where every key is read whole and is another than those before it, nothing is refused. -/
theorem keysPut_of_whole {members : List ((Key × Node) × V)}
    {entries after : List (language.Held key.shape × V)} {state : State}
    {keys : List (language.Held key.shape)}
    (h : keysPut language key path members entries = .ok (after, state))
    (hkeys : List.Forall₂ (KeyReads language key path) (members.map Prod.fst) keys)
    (hd : Distinct (keysEqual language key) (entries ++ keys.zip (members.map Prod.snd))) :
    state.refused = false := by
  induction members generalizing entries state keys with
  | nil =>
    cases h
    rfl
  | cons member rest ih =>
    obtain ⟨member, held⟩ := member
    cases hkeys with
    | @cons _ k _ keys hk hkeys =>
      rw [KeyReads] at hk
      rw [keysPut] at h
      rcases hread : keyRead language key path member with ⟨read, issues⟩
      rw [hread] at hk h
      simp only at hk
      subst hk
      simp only at h
      have hd' : Distinct (keysEqual language key)
          ((entries ++ [(k, held)]) ++ keys.zip (rest.map Prod.snd)) := by
        simpa using hd
      split_ifs at h with hin hle
      · obtain ⟨p, hp, heq⟩ := List.any_eq_true.mp hin
        have hapart := (List.pairwise_append.mp (List.pairwise_append.mp hd').1).2.2 p hp (k, held)
          (List.mem_singleton_self _)
        cases hapart.symm.trans heq
      · obtain ⟨own, hrest, rfl⟩ := later_eq_ok.mp h
        simpa [State.after] using ih hrest hkeys hd'

/-- What the walk records: a key that an earlier one read whole is equal to, once where it stands. -/
theorem keysPut_issues {members : List ((Key × Node) × V)}
    {entries after : List (language.Held key.shape × V)} {state : State}
    {before : List (language.Held key.shape)}
    (h : keysPut language key path members entries = .ok (after, state))
    (hbefore : ∀ k, holds (keysEqual language key) entries k =
      before.any fun earlier => keysEqual language key earlier k) :
    state.issues = keyIssues language key path (members.map Prod.fst) before := by
  have he := language.equivalence key
  induction members generalizing entries state before with
  | nil =>
    cases h
    rfl
  | cons member rest ih =>
    obtain ⟨member, held⟩ := member
    rw [keysPut] at h
    rw [List.map_cons, keyIssues]
    rcases hread : keyRead language key path member with ⟨status | ⟨⟩ | k, issues⟩
    · rw [hread] at h
      cases h
    · rw [hread] at h
      obtain ⟨own, hrest, rfl⟩ := later_eq_ok.mp h
      simp [State.after, ih hrest hbefore]
    · rw [hread] at h
      simp only at h ⊢
      rw [← hbefore k]
      split_ifs at h with hin hle
      · obtain ⟨own, hrest, rfl⟩ := later_eq_ok.mp h
        have hseen : ∀ other, holds (keysEqual language key) entries other =
            (before ++ [k]).any fun earlier => keysEqual language key earlier other := by
          intro other
          rw [List.any_append, ← hbefore other, List.any_cons, List.any_nil, Bool.or_false]
          cases hk : keysEqual language key k other with
          | false => rw [Bool.or_false]
          | true =>
            obtain ⟨p, hp, heq⟩ := List.any_eq_true.mp hin
            rw [Bool.or_true]
            exact holds_of_mem hp (he.trans heq hk)
        simp [State.after, ih hrest hseen, hin]
      · obtain ⟨own, hrest, rfl⟩ := later_eq_ok.mp h
        have hseen : ∀ other, holds (keysEqual language key) (entries ++ [(k, held)]) other =
            (before ++ [k]).any fun earlier => keysEqual language key earlier other := by
          intro other
          rw [List.any_append, ← hbefore other, holds, List.any_append]
          rfl
        simp [State.after, ih hrest hseen, hin]

theorem length_le_foldl (keys members : List (language.Held key.shape)) :
    members.length ≤ (keys.foldl (insertMember (keysEqual language key)) members).length := by
  induction keys generalizing members with
  | nil => exact le_refl _
  | cons k keys ih =>
    rw [List.foldl_cons]
    apply le_trans _ (ih _)
    unfold insertMember
    split_ifs
    · exact le_refl _
    · simp

/-- The walk reads what no insertion wrote exactly where more keys are read than a map holds. -/
theorem keysPut_unwritten_iff {members : List ((Key × Node) × V)}
    {entries : List (language.Held key.shape × V)} (hheld : entries.length ≤ HOLDS) :
    keysPut language key path members entries = .error (.unwritten path) ↔
      HOLDS < ((keysRead language key path (members.map Prod.fst)).foldl
        (insertMember (keysEqual language key)) (entries.map Prod.fst)).length := by
  induction members generalizing entries with
  | nil => simp [keysPut, keysRead, hheld]
  | cons member rest ih =>
    obtain ⟨member, held⟩ := member
    rw [keysPut, List.map_cons, keysRead]
    rcases keyRead language key path member with ⟨status | ⟨⟩ | k, issues⟩
    · simp [hheld]
    · simp only
      rw [later_eq_error, ih hheld]
    · simp only
      have hmember : insertMember (keysEqual language key) (entries.map Prod.fst) k =
          if holds (keysEqual language key) entries k then entries.map Prod.fst
          else entries.map Prod.fst ++ [k] := by
        rw [insertMember, List.any_map]
        rfl
      rw [List.foldl_cons, hmember]
      split_ifs with hin hle
      · rw [later_eq_error, ih hheld]
      · rw [later_eq_error, ih (by simpa using hle), List.map_append]
        rfl
      · have hlength := length_le_foldl (keysRead language key path (rest.map Prod.fst))
          (entries.map Prod.fst ++ [k])
        rw [List.length_append, List.length_map, List.length_singleton] at hlength
        simp only [true_iff]
        omega

end Put

/-- A reader of a value at a place: it does the same whatever was read before, it refuses exactly
where it has no value, it hands on nothing that was not read, and a room it reads that nothing wrote
is one of a map at that place or below it. -/
structure Sound {A : Type} (path : Path) (read : Reader (Option A)) : Prop where
  framed : Framed read
  whole : ∀ a state, read fresh = .ok (a, state) → state.refused = a.isNone
  fed : read fresh ≠ .error .unread
  below : ∀ map, read fresh = .error (.unwritten map) → path <+: map

def issuesOf {A : Type} : Except Halt (A × State) → List Issue
  | .error _ => []
  | .ok (_, state) => state.issues

section Each

variable {A B : Type} {read : A → Reader (Option B)} {place : A → Path}

theorem each_cons_fresh (h : ∀ a, Framed (read a)) (part : A) (parts : List A) :
    each read (part :: parts) fresh =
      match read part fresh with
      | .error halt => .error halt
      | .ok (b, state) => later state
        (match each read parts fresh with
        | .error halt => .error halt
        | .ok (bs, state') => .ok (b :: bs, state')) := by
  have hrest (b : Option B) : Framed (andThen (each read parts) fun bs => answer (b :: bs)) :=
    framed_andThen (framed_each h parts) fun bs => framed_answer (b :: bs)
  rw [each, andThen_fresh hrest]
  cases read part fresh with
  | error halt => rfl
  | ok read' =>
    simp only
    rw [andThen_fresh fun bs => framed_answer (read'.1 :: bs)]
    cases each read parts fresh with
    | error halt => rfl
    | ok rest => simp [answer]

theorem each_ok (h : ∀ a, Sound (place a) (read a)) {parts : List A} {bs : List (Option B)}
    {state : State} (hread : each read parts fresh = .ok (bs, state)) :
    state.refused = bs.any Option.isNone ∧
      state.issues = parts.flatMap (fun part => issuesOf (read part fresh)) ∧
      List.Forall₂ (fun part b => ∃ own, read part fresh = .ok (b, own)) parts bs := by
  induction parts generalizing bs state with
  | nil =>
    cases hread
    exact ⟨rfl, rfl, .nil⟩
  | cons part parts ih =>
    rw [each_cons_fresh fun a => (h a).framed] at hread
    cases hpart : read part fresh with
    | error halt =>
      rw [hpart] at hread
      cases hread
    | ok read' =>
      obtain ⟨b, own⟩ := read'
      rw [hpart] at hread
      obtain ⟨rest, hrest, rfl⟩ := later_eq_ok.mp hread
      cases heach : each read parts fresh with
      | error halt =>
        rw [heach] at hrest
        cases hrest
      | ok read' =>
        obtain ⟨bs', rest'⟩ := read'
        rw [heach] at hrest
        cases hrest
        obtain ⟨hrefused, hissues, hparts⟩ := ih heach
        refine ⟨?_, ?_, .cons ⟨own, hpart⟩ hparts⟩
        · simp only [State.after, List.any_cons]
          rw [(h part).whole b own hpart, hrefused]
        · simp only [State.after, List.flatMap_cons]
          rw [hissues, hpart, issuesOf]

theorem each_error (h : ∀ a, Sound (place a) (read a)) {parts : List A} {halt : Halt}
    (hread : each read parts fresh = .error halt) :
    ∃ part ∈ parts, read part fresh = .error halt := by
  induction parts with
  | nil => cases hread
  | cons part parts ih =>
    rw [each_cons_fresh fun a => (h a).framed] at hread
    cases hpart : read part fresh with
    | error other =>
      rw [hpart] at hread
      cases hread
      exact ⟨part, List.mem_cons_self, hpart⟩
    | ok read' =>
      rw [hpart] at hread
      have hrest := later_eq_error.mp hread
      cases heach : each read parts fresh with
      | error other =>
        rw [heach] at hrest
        cases hrest
        obtain ⟨part', hmem, hpart'⟩ := ih heach
        exact ⟨part', List.mem_cons_of_mem _ hmem, hpart'⟩
      | ok rest =>
        rw [heach] at hrest
        cases hrest

theorem each_whole (h : ∀ a, Sound (place a) (read a)) {parts : List A} {values : List B}
    (hparts : List.Forall₂ (fun part b => ∃ own, read part fresh = .ok (some b, own)) parts values) :
    ∃ state, each read parts fresh = .ok (values.map some, state) := by
  induction hparts with
  | nil => exact ⟨fresh, rfl⟩
  | @cons part b parts values hpart hparts ih =>
    obtain ⟨own, hpart⟩ := hpart
    obtain ⟨rest, ih⟩ := ih
    rw [each_cons_fresh fun a => (h a).framed, hpart, ih]
    exact ⟨own.after rest, rfl⟩

end Each

theorem values_of_whole {B : Type} {bs : List (Option B)} (h : bs.any Option.isNone = false) :
    ∃ values : List B, bs = values.map some := by
  induction bs with
  | nil => exact ⟨[], rfl⟩
  | cons b bs ih =>
    rw [List.any_cons, Bool.or_eq_false_iff] at h
    obtain ⟨values, rfl⟩ := ih h.2
    cases b with
    | none => cases h.1
    | some b => exact ⟨b :: values, rfl⟩

theorem mapM_id_isNone {B : Type} (bs : List (Option B)) :
    (bs.mapM id).isNone = bs.any Option.isNone := by
  induction bs with
  | nil => rfl
  | cons b bs ih =>
    cases b with
    | none => rfl
    | some b =>
      rw [List.mapM_cons, List.any_cons, ← ih]
      cases bs.mapM id <;> rfl

section Shapes

variable {N : Type} (language : Language N)

theorem sound_leafValue (leaf : Leaf N) (node : Node) (path : Path) :
    Sound path (leafValue language leaf node path) where
  framed := framed_leafValue language leaf node path
  whole := by
    intro a state h
    rw [leafValue_fresh] at h
    revert h
    rcases language.read leaf node path with ⟨status | held, issues⟩
    · simp
    · simp only [Except.ok.injEq, Prod.mk.injEq]
      rintro ⟨rfl, rfl⟩
      rfl
  fed := by
    rw [leafValue_fresh]
    rcases language.read leaf node path with ⟨status | held, issues⟩ <;> simp
  below := by
    intro map
    rw [leafValue_fresh]
    rcases language.read leaf node path with ⟨status | held, issues⟩ <;> simp

theorem mismatched_fresh {A : Type} (node : Node) (path : Path) :
    ∃ state, (andThen (mismatched node path) fun _ => andThen refuse fun _ =>
      answer (none : Option A)) fresh = .ok (none, state) ∧ state.refused = true :=
  ⟨_, rfl, rfl⟩

theorem listOf_reads {V : Type} {value : Node → Path → Reader (Option V)}
    (h : ∀ node path, Sound path (value node path)) (node : Node) (path : Path) :
    (∀ list state, listOf value node path fresh = .ok (list, state) →
      state.refused = (wholly list).isNone) ∧
    listOf value node path fresh ≠ .error .unread ∧
    ∀ map, listOf value node path fresh = .error (.unwritten map) → path <+: map := by
  have hsound (item : Node × ℕ) : Sound (path ++ [.element item.2])
      (value item.1 (path ++ [.element item.2])) := h _ _
  unfold listOf
  cases elementsOf node with
  | none =>
    obtain ⟨state, hread, hrefused⟩ := @mismatched_fresh (List (Option V)) node path
    simp only [hread]
    refine ⟨?_, by simp, by simp⟩
    rintro list state' hlist
    cases hlist
    rw [hrefused]
    rfl
  | some items =>
    simp only
    rw [andThen_fresh fun values => framed_answer (some values)]
    cases heach : each (fun item : Node × ℕ => value item.1 (path ++ [.element item.2]))
        items.zipIdx fresh with
    | error halt =>
      obtain ⟨item, -, hitem⟩ := each_error hsound heach
      refine ⟨by simp, ?_, ?_⟩
      · intro hunread
        cases hunread
        exact (hsound item).fed hitem
      · intro map hunwritten
        cases hunwritten
        exact (List.prefix_append _ _).trans ((hsound item).below map hitem)
    | ok read =>
      obtain ⟨values, state⟩ := read
      refine ⟨?_, by simp [answer], by simp [answer]⟩
      intro list state' hlist
      simp only [answer, later_ok, State.after_fresh, Except.ok.injEq, Prod.mk.injEq] at hlist
      obtain ⟨rfl, rfl⟩ := hlist
      rw [(each_ok hsound heach).1, wholly, Option.bind_some, mapM_id_isNone]

theorem mapOf_fresh {V : Type} (key : MapKey N) (path : Path)
    (value : Node → Path → Reader (Option V)) {node : Node} (hobject : isObject node = true) :
    mapOf language key path value node fresh =
      match each (fun member : Key × Node => value member.2 (placeOf path member))
        (membersOf node) fresh with
      | .error halt => .error halt
      | .ok (values, state) =>
        if state.refused then .ok (none, state)
        else
          match keysInto language key path ((membersOf node).zip values) mapEmpty fresh with
          | .error halt => .error halt
          | .ok (map, state') =>
            .ok (if state'.refused then none else some map, state.after state') := by
  have hkeys (values : List (Option V)) :
      Framed (keysInto language key path ((membersOf node).zip values) mapEmpty) :=
    framed_keysInto language key path _ _
  unfold mapOf
  rw [if_pos hobject, andThen, own_fresh]
  cases each (fun member : Key × Node => value member.2 (placeOf path member))
      (membersOf node) fresh with
  | error halt => rfl
  | ok read =>
    obtain ⟨values, state⟩ := read
    simp only [builtWhere]
    cases hrefused : state.refused with
    | true => rfl
    | false =>
      simp only [Bool.false_eq_true, if_false]
      rw [andThen, framed_own (hkeys values) state, own_fresh]
      cases keysInto language key path ((membersOf node).zip values) mapEmpty fresh with
      | error halt => rfl
      | ok read =>
        obtain ⟨map, state'⟩ := read
        simp only [later_ok]
        split_ifs <;> rfl

end Shapes

section Values

variable {N : Type} (language : Language N)

theorem given_zip {V : Type} (members : List (Key × Node)) (values : List V) :
    members.zip (values.map some) = given (members.zip values) := by
  rw [given, List.zip_map_right]
  rfl

theorem keysInto_given {V : Type} (key : MapKey N) (path : Path) (members : List (Key × Node))
    (values : List V) :
    Alike language key (keysPut language key path (members.zip values) [])
      (keysInto language key path (members.zip (values.map some)) mapEmpty fresh) := by
  rw [given_zip]
  exact keysInto_alike language key path _ refines_empty (Nat.zero_le _)

theorem sound_mapOf {V : Type} (key : MapKey N) (path : Path)
    {value : Node → Path → Reader (Option V)} (h : ∀ node path, Sound path (value node path))
    (node : Node) : Sound path (mapOf language key path value node) := by
  have hframed : Framed (mapOf language key path value node) :=
    framed_mapOf language key path (fun node path => (h node path).framed) node
  have hsound (member : Key × Node) : Sound (placeOf path member)
      (value member.2 (placeOf path member)) := h _ _
  by_cases hobject : isObject node = true
  · have hfresh := mapOf_fresh language key path value hobject
    cases heach : each (fun member : Key × Node => value member.2 (placeOf path member))
        (membersOf node) fresh with
    | error halt =>
      rw [heach] at hfresh
      obtain ⟨member, -, hmember⟩ := each_error hsound heach
      refine ⟨hframed, ?_, ?_, ?_⟩
      · intro a state hread
        cases hfresh.symm.trans hread
      · intro hread
        cases hfresh.symm.trans hread
        exact (hsound member).fed hmember
      · intro map hread
        cases hfresh.symm.trans hread
        exact (List.prefix_append _ _).trans ((hsound member).below map hmember)
    | ok read =>
      obtain ⟨values, state⟩ := read
      rw [heach] at hfresh
      simp only at hfresh
      obtain ⟨hrefused, -, -⟩ := each_ok hsound heach
      cases hstate : state.refused with
      | true =>
        rw [if_pos hstate] at hfresh
        refine ⟨hframed, ?_, ?_, ?_⟩
        · intro a state' hread
          cases hfresh.symm.trans hread
          exact hstate
        · rw [hfresh]
          simp
        · rw [hfresh]
          simp
      | false =>
        obtain ⟨values, rfl⟩ := values_of_whole (hrefused.symm.trans hstate)
        have halike := keysInto_given language key path (membersOf node) values
        simp only [hstate, Bool.false_eq_true, if_false] at hfresh
        cases hput : keysPut language key path ((membersOf node).zip values) [] with
        | error halt =>
          rw [hput] at halike
          rw [show keysInto _ _ _ _ _ _ = _ from halike] at hfresh
          refine ⟨hframed, ?_, ?_, ?_⟩
          · intro a state' hread
            cases hfresh.symm.trans hread
          · intro hread
            cases hfresh.symm.trans hread
            exact keysPut_fed _ _ hput
          · intro map hread
            cases hfresh.symm.trans hread
            rw [keysPut_unwritten_path hput]
        | ok put =>
          obtain ⟨entries, state'⟩ := put
          rw [hput] at halike
          obtain ⟨map, hwalk, -⟩ := halike
          rw [hwalk] at hfresh
          refine ⟨hframed, ?_, ?_, ?_⟩
          · intro a whole hread
            rw [hfresh] at hread
            simp only [Except.ok.injEq, Prod.mk.injEq] at hread
            obtain ⟨rfl, rfl⟩ := hread
            simp only [State.after, hstate, Bool.false_or]
            cases state'.refused <;> rfl
          · rw [hfresh]
            simp
          · rw [hfresh]
            simp
  · obtain ⟨state, hread, hrefused⟩ :=
      @mismatched_fresh (Collection.Map (language.Held key.shape) V) node path
    have hfresh : mapOf language key path value node fresh = .ok (none, state) := by
      rw [mapOf, if_neg hobject]
      exact hread
    refine ⟨hframed, ?_, ?_, ?_⟩
    · intro a state' h
      cases hfresh.symm.trans h
      exact hrefused
    · rw [hfresh]
      simp
    · rw [hfresh]
      simp

theorem Sound.congr {A : Type} {path : Path} {read other : Reader (Option A)}
    (h : Sound path read) (hframed : Framed other) (hfresh : other fresh = read fresh) :
    Sound path other where
  framed := hframed
  whole := hfresh ▸ h.whole
  fed := hfresh ▸ h.fed
  below := hfresh ▸ h.below

/-- What is made of what was read is sound where it is made exactly where nothing was refused. -/
theorem sound_made {A B : Type} {path : Path} {read : Reader A} {make : A → Option B}
    (hframed : Framed read)
    (hwhole : ∀ a state, read fresh = .ok (a, state) → state.refused = (make a).isNone)
    (hfed : read fresh ≠ .error .unread)
    (hbelow : ∀ map, read fresh = .error (.unwritten map) → path <+: map) :
    Sound path (andThen read fun a => answer (make a)) := by
  have hfresh := @andThen_fresh _ _ read (fun a => answer (make a)) fun a => framed_answer _
  refine ⟨framed_andThen hframed fun a => framed_answer _, ?_, ?_, ?_⟩
  all_goals
    rw [hfresh]
    cases hread : read fresh with
    | error halt => simp_all
    | ok read =>
      obtain ⟨a, state⟩ := read
      simp_all [answer]

theorem sound_list {V : Type} {value : Node → Path → Reader (Option V)}
    (h : ∀ node path, Sound path (value node path)) (node : Node) (path : Path) :
    Sound path (list value node path) := by
  obtain ⟨hwhole, hfed, hbelow⟩ := listOf_reads h node path
  exact sound_made (framed_listOf (fun node path => (h node path).framed) node path) hwhole hfed
    hbelow

theorem sound_set {V : Type} {value : Node → Path → Reader (Option V)}
    (h : ∀ node path, Sound path (value node path)) (node : Node) (path : Path)
    (hash : V → BitVec 64) (equal : V → V → Bool) : Sound path (set value node path hash equal) := by
  obtain ⟨hwhole, hfed, hbelow⟩ := listOf_reads h node path
  have hlist := framed_listOf (fun node path => (h node path).framed) node path
  have hmade : Sound path (andThen (listOf value node path) fun list => answer
      ((wholly list).map fun elements => elements.foldl
        (fun set element => set.with equal (member hash element) .keep) EMPTY)) :=
    sound_made hlist (fun list state hread => by
      rw [hwhole list state hread, Option.isNone_map]) hfed hbelow
  refine hmade.congr (framed_set (fun node path => (h node path).framed) node path hash equal) ?_
  rw [set, andThen, own_fresh, andThen_fresh fun list => framed_answer _]
  cases hread : listOf value node path fresh with
  | error halt => rfl
  | ok read =>
    obtain ⟨list, state⟩ := read
    have hrefused := hwhole list state hread
    cases hlist : wholly list with
    | none =>
      rw [hlist] at hrefused
      simp [hrefused, hlist, builtWhere, answer]
    | some elements =>
      rw [hlist] at hrefused
      simp [hrefused, hlist, builtWhere, handed, answer, andThen]

theorem sound_option {V : Type} {value : Node → Path → Reader (Option V)}
    (h : ∀ node path, Sound path (value node path)) (node : Node) (path : Path) :
    Sound path (option value node path) := by
  have hframed := framed_option (fun node path => (h node path).framed) node path
  unfold option at hframed ⊢
  split
  · refine ⟨framed_answer _, ?_, by simp [answer], by simp [answer]⟩
    intro a state hread
    cases hread
    rfl
  · have hinner := h node path
    exact sound_made hinner.framed (fun a state hread => by
      rw [hinner.whole a state hread, Option.isNone_map]) hinner.fed hinner.below

theorem sound_value (shape : CodecShape N) (node : Node) (path : Path) :
    Sound path (value language shape node path) := by
  induction shape generalizing node path with
  | leaf leaf => exact sound_leafValue language leaf node path
  | listOf element ih => exact sound_list ih node path
  | setOf element ih => exact sound_set ih node path _ _
  | mapOf key held ih => exact sound_mapOf language key path ih node
  | optionOf present ih => exact sound_option ih node path

end Values

section Map

variable {N : Type} (language : Language N) (key : MapKey N) (held : CodecShape N) (path : Path)
  (members : List (Key × Node))

def ValueReads (member : Key × Node) (v : Of language.Held held) : Prop :=
  ∃ state, value language held member.2 (placeOf path member) fresh = .ok (some v, state)

def ValuesRead : Prop := ∃ values, List.Forall₂ (ValueReads language held path) members values

structure MembersRead (keys : List (language.Held key.shape)) (values : List (Of language.Held held)) :
    Prop where
  eachValue : List.Forall₂ (ValueReads language held path) members values
  eachKey : List.Forall₂ (KeyReads language key path) members keys
  apart : keys.Pairwise fun a b => keysEqual language key a b = false

def valueIssues : List Issue :=
  members.flatMap fun member =>
    issuesOf (value language held member.2 (placeOf path member) fresh)

/-- A map is read where every member of its object is, of exactly those; what was recorded before
stands, and after it what reading the values records and, where they were all read, what reading the
keys does, each that an earlier one is equal to once. -/
structure ReadsMap (before : State)
    (outcome : Except Halt (Option (Collection.Map (language.Held key.shape) (Of language.Held held))
      × State)) : Prop where
  written : outcome ≠ .error (.unwritten path)
  fed : outcome ≠ .error .unread
  answers : (∃ map state, outcome = .ok (some map, state)) ↔
    ∃ keys values, MembersRead language key held path members keys values
  entries : ∀ map state, outcome = .ok (some map, state) → ∃ keys values,
    MembersRead language key held path members keys values ∧
      Refines (language.hash (.leaf key.shape)) (keysEqual language key) map (keys.zip values)
  refused : ∀ read state, outcome = .ok (read, state) →
    state.refused = (before.refused || read.isNone)
  issues : ∀ read state, outcome = .ok (read, state) →
    (ValuesRead language held path members → state.issues = before.issues ++
      (valueIssues language held path members ++ keyIssues language key path members [])) ∧
    (¬ ValuesRead language held path members → state.issues = before.issues ++
      valueIssues language held path members)

variable {language key held path members}

theorem keysPut_reads {V : Type} {members : List ((Key × Node) × V)}
    {entries : List (language.Held key.shape × V)} {keys : List (language.Held key.shape)}
    {halt : Halt} (hkeys : List.Forall₂ (KeyReads language key path) (members.map Prod.fst) keys)
    (h : keysPut language key path members entries = .error halt) : halt = .unwritten path := by
  induction members generalizing entries keys with
  | nil => cases h
  | cons member rest ih =>
    obtain ⟨member, v⟩ := member
    cases hkeys with
    | @cons _ k _ keys hk hkeys =>
      rw [KeyReads] at hk
      rw [keysPut] at h
      rcases hread : keyRead language key path member with ⟨read, issues⟩
      rw [hread] at hk h
      simp only at hk
      subst hk
      simp only at h
      split_ifs at h
      · exact ih hkeys (later_eq_error.mp h)
      · exact ih hkeys (later_eq_error.mp h)
      · cases h
        rfl

theorem distinct_zip {V : Type} {keys : List (language.Held key.shape)} {values : List V}
    (hlength : keys.length ≤ values.length) :
    Distinct (keysEqual language key) (keys.zip values) ↔
      keys.Pairwise fun a b => keysEqual language key a b = false := by
  have hkeys : (keys.zip values).map Prod.fst = keys := List.map_fst_zip hlength
  rw [← hkeys, List.pairwise_map, hkeys]
  rfl

theorem mapOf_unread (hread : ¬ ValuesRead language held path members) {node : Node}
    (hobject : isObject node = true) (hmembers : membersOf node = members) :
    (∃ halt, mapOf language key path (value language held) node fresh = .error halt ∧
      halt ≠ .unwritten path) ∨
    ∃ state, mapOf language key path (value language held) node fresh = .ok (none, state) ∧
      state.issues = valueIssues language held path members := by
  have hsound (member : Key × Node) : Sound (placeOf path member)
      (value language held member.2 (placeOf path member)) := sound_value language held _ _
  have hfresh := mapOf_fresh language key path (value language held) hobject
  rw [hmembers] at hfresh
  cases heach : each (fun member : Key × Node => value language held member.2 (placeOf path member))
      members fresh with
  | error halt =>
    rw [heach] at hfresh
    refine .inl ⟨halt, hfresh, ?_⟩
    rintro rfl
    obtain ⟨member, -, hmember⟩ := each_error hsound heach
    have hlength := ((hsound member).below path hmember).length_le
    simp [placeOf] at hlength
  | ok read =>
    obtain ⟨values, state⟩ := read
    rw [heach] at hfresh
    obtain ⟨hrefused, hissues, hparts⟩ := each_ok hsound heach
    cases hstate : state.refused with
    | true =>
      simp only [hstate, if_true] at hfresh
      exact .inr ⟨state, hfresh, hissues⟩
    | false =>
      obtain ⟨values, rfl⟩ := values_of_whole (hrefused.symm.trans hstate)
      rw [List.forall₂_map_right_iff] at hparts
      exact absurd ⟨values, hparts⟩ hread

/-- Where every value is read whole, what is read is what the walk over the keys comes to. -/
theorem mapOf_read {values : List (Of language.Held held)}
    (hread : List.Forall₂ (ValueReads language held path) members values) {node : Node}
    (hobject : isObject node = true) (hmembers : membersOf node = members) :
    ∃ state : State, state.issues = valueIssues language held path members ∧
      state.refused = false ∧
      mapOf language key path (value language held) node fresh =
        match keysInto language key path (members.zip (values.map some)) mapEmpty fresh with
        | .error halt => .error halt
        | .ok (map, state') =>
          .ok (if state'.refused then none else some map, state.after state') := by
  have hsound (member : Key × Node) : Sound (placeOf path member)
      (value language held member.2 (placeOf path member)) := sound_value language held _ _
  have hfresh := mapOf_fresh language key path (value language held) hobject
  rw [hmembers] at hfresh
  obtain ⟨state, heach⟩ := each_whole hsound hread
  obtain ⟨hrefused, hissues, -⟩ := each_ok hsound heach
  have hwhole : state.refused = false := by
    rw [hrefused, List.any_map]
    simp
  rw [heach] at hfresh
  simp only [hwhole, Bool.false_eq_true, if_false] at hfresh
  refine ⟨state, hissues, hwhole, hfresh.trans ?_⟩
  cases keysInto language key path (members.zip (values.map some)) mapEmpty fresh <;> rfl

end Map

def TooMany {N : Type} (language : Language N) (key : MapKey N) (held : CodecShape N) (path : Path)
    (members : List (Key × Node)) : Prop :=
  ValuesRead language held path members ∧ HOLDS < different language key path members

section MapReader

variable {N : Type} {language : Language N} {key : MapKey N} {held : CodecShape N} {path : Path}
  {members : List (Key × Node)} {node : Node}

theorem MembersRead.not_unread {keys : List (language.Held key.shape)}
    {values : List (Of language.Held held)}
    (h : MembersRead language key held path members keys values) :
    ValuesRead language held path members := ⟨values, h.eachValue⟩

theorem map_fst_zip {values : List (Of language.Held held)}
    (hread : List.Forall₂ (ValueReads language held path) members values) :
    (members.zip values).map Prod.fst = members ∧ (members.zip values).map Prod.snd = values :=
  ⟨List.map_fst_zip hread.length_eq.le, List.map_snd_zip hread.length_eq.ge⟩

theorem reads_of_unread (hread : ¬ ValuesRead language held path members)
    (hobject : isObject node = true) (hmembers : membersOf node = members) (before : State) :
    ReadsMap language key held path members before
      (mapOf language key path (value language held) node before) := by
  have hsound := sound_mapOf language key path (sound_value language held) node
  rw [hsound.framed before]
  have hnone (keys values) : ¬ MembersRead language key held path members keys values :=
    fun h => hread h.not_unread
  rcases mapOf_unread hread hobject hmembers with ⟨halt, hhalt, hother⟩ | ⟨state, hstate, hissues⟩
  · rw [hhalt]
    refine ⟨?_, ?_, ?_, by simp, by simp, by simp⟩
    · intro h
      cases h
      exact hother rfl
    · intro h
      cases h
      exact hsound.fed hhalt
    · simp [hnone]
  · have hrefused := hsound.whole none state hstate
    rw [hstate]
    refine ⟨by simp, by simp, by simp [hnone], by simp, ?_, ?_⟩
    · intro read state' h
      simp only [later_ok, Except.ok.injEq, Prod.mk.injEq] at h
      obtain ⟨rfl, rfl⟩ := h
      simp [State.after, hrefused]
    · intro read state' h
      simp only [later_ok, Except.ok.injEq, Prod.mk.injEq] at h
      obtain ⟨rfl, rfl⟩ := h
      exact ⟨fun hyes => absurd hyes hread, fun _ => by simp [State.after, hissues]⟩

/-- The map reader of an object whose values are all read does what it should exactly where no more
keys are read than a map holds. -/
theorem reads_of_read {values : List (Of language.Held held)}
    (hread : List.Forall₂ (ValueReads language held path) members values)
    (hobject : isObject node = true) (hmembers : membersOf node = members) (before : State) :
    ReadsMap language key held path members before
        (mapOf language key path (value language held) node before) ↔
      ¬ HOLDS < different language key path members := by
  have hsound := sound_mapOf language key path (sound_value language held) node
  obtain ⟨hfst, hsnd⟩ := map_fst_zip hread
  obtain ⟨state, hissues, hwhole, hvalue⟩ := @mapOf_read N language key held path
    members values hread node hobject hmembers
  have halike := keysInto_given language key path members values
  have hunwritten : keysPut language key path (members.zip values) [] =
      .error (.unwritten path) ↔ HOLDS < ((keysRead language key path
        ((members.zip values).map Prod.fst)).foldl (insertMember (keysEqual language key)) []).length :=
    keysPut_unwritten_iff (Nat.zero_le _)
  rw [hfst] at hunwritten
  rw [hsound.framed before, hvalue]
  cases hput : keysPut language key path (members.zip values) [] with
  | error halt =>
    rw [hput] at halike hunwritten
    rw [show keysInto _ _ _ _ _ _ = _ from halike]
    have hunread : halt ≠ .unread := by
      rintro rfl
      exact keysPut_fed _ _ hput
    by_cases hhalt : halt = .unwritten path
    · apply iff_of_false
      · intro h
        exact h.written (by rw [hhalt, later_error])
      · rw [not_not]
        exact hunwritten.mp (by rw [hhalt])
    · apply iff_of_true
      · refine ⟨fun h => hhalt (Except.error.inj h), fun h => hunread (Except.error.inj h), ?_,
          by simp, by simp, by simp⟩
        simp only [later_error, reduceCtorEq, exists_false, false_iff, not_exists]
        intro keys values' h
        exact hhalt (keysPut_reads (hfst.symm ▸ h.eachKey) hput)
      · intro hmore
        exact hhalt (Except.error.inj (hunwritten.mpr hmore))
  | ok put =>
    obtain ⟨entries, own⟩ := put
    rw [hput] at halike hunwritten
    obtain ⟨map, hwalk, hrefines⟩ := halike
    rw [hwalk]
    apply iff_of_true
    · have hkeyIssues : own.issues =
          keyIssues language key path ((members.zip values).map Prod.fst) [] :=
        keysPut_issues hput fun k => rfl
      rw [hfst] at hkeyIssues
      have hall : ValuesRead language held path members := ⟨values, hread⟩
      have hentries (h : own.refused = false) : ∃ keys,
          MembersRead language key held path members keys values ∧
            entries = keys.zip values := by
        obtain ⟨keys, hkeys, hafter, hdistinct⟩ := keysPut_whole hput h List.Pairwise.nil
        rw [hfst] at hkeys
        rw [hsnd, List.nil_append] at hafter
        have hlength : keys.length ≤ values.length :=
          (hkeys.length_eq.symm.trans hread.length_eq).le
        exact ⟨keys, ⟨hread, hkeys, (distinct_zip hlength).mp (hafter ▸ hdistinct)⟩, hafter⟩
      have hsome {map'} (h : (if own.refused then none else some map) = some map') :
          own.refused = false ∧ map = map' := by
        cases hown : own.refused with
        | true =>
          rw [hown] at h
          cases h
        | false =>
          rw [hown] at h
          exact ⟨rfl, Option.some.inj h⟩
      refine ⟨by simp, by simp, ?_, ?_, ?_, ?_⟩
      · constructor
        · rintro ⟨map', state', h⟩
          simp only [later_ok, Except.ok.injEq, Prod.mk.injEq] at h
          obtain ⟨hown, -⟩ := hsome h.1
          obtain ⟨keys, hmembersRead, -⟩ := hentries hown
          exact ⟨keys, values, hmembersRead⟩
        · rintro ⟨keys, values', h⟩
          have hlength : keys.length ≤ values.length :=
            (h.eachKey.length_eq.symm.trans hread.length_eq).le
          have hown : own.refused = false := by
            apply keysPut_of_whole hput (hfst.symm ▸ h.eachKey)
            rw [hsnd, List.nil_append]
            exact (distinct_zip hlength).mpr h.apart
          refine ⟨map, before.after (state.after own), ?_⟩
          simp only [hown, Bool.false_eq_true, if_false, later_ok]
      · intro map' state' h
        simp only [later_ok, Except.ok.injEq, Prod.mk.injEq] at h
        obtain ⟨hown, rfl⟩ := hsome h.1
        obtain ⟨keys, hmembersRead, rfl⟩ := hentries hown
        exact ⟨keys, values, hmembersRead, hrefines⟩
      · intro read state' h
        simp only [later_ok, Except.ok.injEq, Prod.mk.injEq] at h
        obtain ⟨rfl, rfl⟩ := h
        simp only [State.after, hwhole, Bool.false_or]
        cases own.refused <;> rfl
      · intro read state' h
        simp only [later_ok, Except.ok.injEq, Prod.mk.injEq] at h
        obtain ⟨rfl, rfl⟩ := h
        refine ⟨fun _ => ?_, fun hno => absurd hall hno⟩
        simp only [State.after, hissues, hkeyIssues]
    · intro hmore
      cases hunwritten.mpr hmore

end MapReader

/-- The reader of a map answers exactly what it should of an object, in either form, exactly where
not more keys are read, no two equal, than a map holds. -/
theorem reads_map_iff {N : Type} (language : Language N) (key : MapKey N) (held : CodecShape N)
    (form : Document.Form) (members : List (Key × Node)) (path : Path) (before : State) :
    ReadsMap language key held path members before
        (mapOf language key path (value language held) (Document.closed form members) before) ↔
      ¬ TooMany language key held path members := by
  have hobject : isObject (Document.closed form members) = true := by
    cases form <;> rfl
  have hmembers : membersOf (Document.closed form members) = members := by
    cases form <;> rfl
  by_cases hread : ValuesRead language held path members
  · obtain ⟨values, hvalues⟩ := hread
    rw [reads_of_read hvalues hobject hmembers before, TooMany]
    simp only [show ValuesRead language held path members from ⟨values, hvalues⟩, true_and]
  · apply iff_of_true
    · exact reads_of_unread hread hobject hmembers before
    · intro h
      exact hread h.1

def sameText (one other : Bytes) : Bool := decide (one = other)

theorem sameText_equivalence : Equivalence fun one other => sameText one other = true where
  refl _ := decide_eq_true rfl
  symm h := decide_eq_true (of_decide_eq_true h).symm
  trans h h' := decide_eq_true ((of_decide_eq_true h).trans (of_decide_eq_true h'))

def texts : Language Empty where
  Held _ := Bytes
  read _ node path :=
    match node with
    | .string bytes => (.ok (some bytes), [])
    | .null => (.ok none, [⟨"required", path⟩])
    | _ => (.ok none, [⟨"type_mismatch", path⟩])
  hash _ _ := 0
  equal
    | .leaf _ => sameText
    | _ => fun _ _ => false
  equivalence _ := sameText_equivalence
  hash_of_equal _ _ _ _ := rfl

def numbered (n : ℕ) : Bytes := encode (HostSymbols.decimal n)

def counted (count : ℕ) : List (Key × Node) :=
  (List.range count).map fun n => (⟨numbered n⟩, .string [])

theorem numbered_injective : Function.Injective numbered :=
  fun _ _ h => HostSymbols.decimal_injective (encode_injective h)

theorem sameText_numbered {n m : ℕ} (h : n ≠ m) : sameText (numbered n) (numbered m) = false :=
  decide_eq_false fun hsame => h (numbered_injective hsame)

theorem valuesRead_counted (count : ℕ) :
    ValuesRead texts (.leaf (.scalar .string)) [] (counted count) := by
  have hread : ∀ member ∈ counted count,
      ValueReads texts (.leaf (.scalar .string)) [] member ([] : Bytes) := by
    intro member hmember
    obtain ⟨n, -, rfl⟩ := List.mem_map.mp hmember
    exact ⟨_, rfl⟩
  exact ⟨_, List.forall₂_map_right_iff.mpr (List.forall₂_same.mpr hread)⟩

def keyText (n : ℕ) : texts.Held (MapKey.shape .text) := numbered n

theorem keysRead_counted (numbers : List ℕ) :
    keysRead texts .text [] (numbers.map fun n => (⟨numbered n⟩, Document.Node.string [])) =
      numbers.map keyText := by
  induction numbers with
  | nil => rfl
  | cons n numbers ih =>
    rw [List.map_cons, List.map_cons, ← ih]
    rfl

/-- Keys no two of which are equal are each a member of their own. -/
theorem foldl_insertMember {K : Type} {equal : K → K → Bool} {members keys : List K}
    (h : (members ++ keys).Pairwise fun a b => equal a b = false) :
    keys.foldl (insertMember equal) members = members ++ keys := by
  induction keys generalizing members with
  | nil => rw [List.foldl_nil, List.append_nil]
  | cons k keys ih =>
    have hfree : (members.any fun member => equal member k) = false := by
      rw [List.any_eq_false]
      intro member hmember
      simp [(List.pairwise_append.mp h).2.2 member hmember k List.mem_cons_self]
    rw [List.foldl_cons, insertMember, hfree, if_neg Bool.false_ne_true, ih (by simpa using h),
      List.append_assoc, List.singleton_append]

theorem different_counted (count : ℕ) : different texts .text [] (counted count) = count := by
  have hapart : ([] ++ (List.range count).map keyText).Pairwise
      fun a b => keysEqual texts .text a b = false := by
    rw [List.nil_append, List.pairwise_map]
    exact List.nodup_range.imp fun hne => sameText_numbered hne
  rw [different, counted, keysRead_counted, foldl_insertMember hapart, List.nil_append,
    List.length_map, List.length_range]

/-- An object of more members than a map holds keys, each of whose keys is another text. -/
theorem not_reads_counted {count : ℕ} (h : HOLDS < count) :
    ¬ ReadsMap texts .text (.leaf (.scalar .string)) [] (counted count) fresh
      (mapOf texts .text [] (value texts (.leaf (.scalar .string)))
        (Document.closed .text (counted count)) fresh) := by
  obtain ⟨values, hvalues⟩ := valuesRead_counted count
  rw [reads_of_read hvalues rfl rfl fresh, not_not, different_counted]
  exact h

theorem holds_succ : HOLDS < 2 ^ 31 := by
  unfold HOLDS
  omega

/-- The least such object. -/
theorem an_object_past_what_a_map_holds :
    ¬ ReadsMap texts .text (.leaf (.scalar .string)) [] (counted (2 ^ 31)) fresh
      (mapOf texts .text [] (value texts (.leaf (.scalar .string)))
        (Document.closed .text (counted (2 ^ 31))) fresh) :=
  not_reads_counted holds_succ

end SoutherNative.Decoding
