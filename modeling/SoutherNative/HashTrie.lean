import SoutherNative.Bitmap

set_option autoImplicit false

/-!
# The trie of a set and a map

The persistent hash trie of the runtime's `collection`. A node is its header and the words after it;
a word marked `BELOW` is the node it points at, and any other is the entry. Nodes are never written
again once made, so the arena's addresses are the trees they lead to. A key is a value of any type,
with the hash and the equality handed over for it.
-/
namespace SoutherNative.HashTrie
open Bitmap

def BITS : ℕ := 5

def DEEPEST : ℕ := 64

def SIDE_BY_SIDE : BitVec 64 := bit 63

variable {K V : Type}

/-- One entry: the hash it was put in under, the key, and the value. -/
structure Entry (K V : Type) where
  hash : BitVec 64
  key : K
  value : V

inductive Word (K V : Type)
  | entry (entry : Entry K V)
  | node (header : BitVec 64) (words : List (Word K V))

/-- A node: its first word, and what stands after it. -/
structure Node (K V : Type) where
  header : BitVec 64
  words : List (Word K V)

def Node.word (node : Node K V) : Word K V := .node node.header node.words

/-- How many entries it holds, and the trie's top node, or none. -/
structure Trie (K V : Type) where
  size : ℕ
  root : Option (Node K V)

def EMPTY : Trie K V := ⟨0, none⟩

inductive Put (K V : Type)
  | kept
  | replaced (node : Node K V)
  | added (node : Node K V)

inductive OnEqual
  | keep
  | takeValue
  deriving DecidableEq

/-- Which of the thirty-two the five bits of `hash` at `shift` write. -/
def digit (hash : BitVec 64) (shift : ℕ) : ℕ := (hash >>> shift &&& 31#64).toNat

def bitOf (hash : BitVec 64) (shift : ℕ) : BitVec 64 := bit (digit hash shift)

def indexOf (header bit : BitVec 64) : ℕ := rank header bit

def sideBySide (header : BitVec 64) : Bool := header &&& SIDE_BY_SIDE ≠ 0#64

def countOf (header : BitVec 64) : ℕ :=
  if sideBySide header then (header &&& ~~~SIDE_BY_SIDE).toNat else countOnes header

def wordsOf (header : BitVec 64) (words : List (Word K V)) : List (Word K V) :=
  words.take (countOf header)

section Operations

variable (equal : K → K → Bool)

/-- Whether the entry is under a key equal to `key`. -/
def same (entry : Entry K V) (hash : BitVec 64) (key : K) : Bool :=
  entry.hash = hash && equal entry.key key

def sameWord (hash : BitVec 64) (key : K) : Word K V → Bool
  | .entry entry => same equal entry hash key
  | .node _ _ => false

theorem sizeOf_lt_of_getElem? {words below : List (Word K V)} {header belowHeader : BitVec 64}
    {index : ℕ} (h : (wordsOf header words)[index]? = some (.node belowHeader below)) :
    sizeOf below < sizeOf words := by
  have hmem := List.mem_of_mem_take (List.mem_of_getElem? h)
  have hlt := List.sizeOf_lt_of_mem hmem
  simp only [Word.node.sizeOf_spec] at hlt
  omega

/-- The loop of `find`, from the node with this header and these words. -/
def findFrom (header : BitVec 64) (words : List (Word K V)) (shift : ℕ) (hash : BitVec 64)
    (key : K) : Option (Entry K V) :=
  if sideBySide header then
    match (wordsOf header words).find? (sameWord equal hash key) with
    | some (.entry entry) => some entry
    | _ => none
  else
    let bit := bitOf hash shift
    if header &&& bit = 0#64 then none
    else
      match _h : (wordsOf header words)[indexOf header bit]? with
      | some (.node header words) => findFrom header words (shift + BITS) hash key
      | some (.entry entry) => if same equal entry hash key then some entry else none
      | none => none
termination_by sizeOf words
decreasing_by exact sizeOf_lt_of_getElem? _h

def Trie.find (trie : Trie K V) (hash : BitVec 64) (key : K) : Option (Entry K V) :=
  match trie.root with
  | none => none
  | some node => findFrom equal node.header node.words 0 hash key

/-- What the entry under a key equal to `arriving`'s becomes, or none where it is kept. -/
def arrivedAt (there arriving : Entry K V) : OnEqual → Option (Entry K V)
  | .keep => none
  | .takeValue => some { there with value := arriving.value }

/-- A node `shift` bits down holding two entries under unequal keys. -/
def apart (shift : ℕ) (one other : Entry K V) : Node K V :=
  if shift ≥ DEEPEST then ⟨SIDE_BY_SIDE ||| 2#64, [.entry one, .entry other]⟩
  else
    let oneBit := bitOf one.hash shift
    let otherBit := bitOf other.hash shift
    if oneBit = otherBit then ⟨oneBit, [(apart (shift + BITS) one other).word]⟩
    else if oneBit < otherBit then ⟨oneBit ||| otherBit, [.entry one, .entry other]⟩
    else ⟨oneBit ||| otherBit, [.entry other, .entry one]⟩
termination_by DEEPEST - shift
decreasing_by
  simp only [BITS, DEEPEST] at *
  omega

/-- The node with `index` holding `arrived`, where the entry there is not kept. -/
def putArrived (header : BitVec 64) (words : List (Word K V)) (index : ℕ)
    (arrived : Option (Entry K V)) : Put K V :=
  match arrived with
  | none => .kept
  | some entry => .replaced ⟨header, words.set index (.entry entry)⟩

/-- The node with `index` holding what the node below came to. -/
def putBelow (header : BitVec 64) (words : List (Word K V)) (index : ℕ) : Put K V → Put K V
  | .kept => .kept
  | .replaced below => .replaced ⟨header, words.set index below.word⟩
  | .added below => .added ⟨header, words.set index below.word⟩

/-- `put` into a node. The source's first branch, where there is no node, is `with`'s. -/
def put (onEqual : OnEqual) (header : BitVec 64) (words : List (Word K V)) (shift : ℕ)
    (entry : Entry K V) : Put K V :=
  if sideBySide header then
    let words := wordsOf header words
    match words.findIdx? (sameWord equal entry.hash entry.key) with
    | some index =>
      match words[index]? with
      | some (.entry there) => putArrived header words index (arrivedAt there entry onEqual)
      | _ => .kept
    | none =>
      let words := words ++ [.entry entry]
      .added ⟨SIDE_BY_SIDE ||| BitVec.ofNat 64 words.length, words⟩
  else
    let bit := bitOf entry.hash shift
    let index := indexOf header bit
    if header &&& bit = 0#64 then
      .added ⟨header ||| bit, (wordsOf header words).insertIdx index (.entry entry)⟩
    else
      match _h : (wordsOf header words)[index]? with
      | some (.node belowHeader belowWords) =>
        putBelow header (wordsOf header words) index
          (put onEqual belowHeader belowWords (shift + BITS) entry)
      | some (.entry there) =>
        if there.hash = entry.hash ∧ equal there.key entry.key = true then
          putArrived header (wordsOf header words) index (arrivedAt there entry onEqual)
        else
          .added ⟨header,
            (wordsOf header words).set index (apart (shift + BITS) there entry).word⟩
      | none => .kept
termination_by sizeOf words
decreasing_by exact sizeOf_lt_of_getElem? _h

/-- The collection with `entry` put in, or, where it holds an entry under an equal key, that entry
as `onEqual` says. -/
def Trie.with (trie : Trie K V) (entry : Entry K V) (onEqual : OnEqual) : Trie K V :=
  let put : Put K V :=
    match trie.root with
    | none => .added ⟨bitOf entry.hash 0, [.entry entry]⟩
    | some node => put equal onEqual node.header node.words 0 entry
  match put with
  | .kept => trie
  | .replaced root => ⟨trie.size, some root⟩
  | .added root => ⟨trie.size + 1, some root⟩

/-- The node with what is left of the word for `bit`, or without it where nothing is. -/
def takenBelow (header : BitVec 64) (words : List (Word K V)) (bit : BitVec 64)
    (left : Option (Option (Node K V))) : Option (Option (Node K V)) :=
  let index := indexOf header bit
  match left with
  | none => none
  | some none =>
    if header &&& ~~~bit = 0#64 then some none
    else some (some ⟨header &&& ~~~bit, words.eraseIdx index⟩)
  | some (some left) => some (some ⟨header, words.set index left.word⟩)

/-- The node without the entry under a key equal to `key`: nought where that leaves it empty, and
none where no such entry is there. -/
def taken (header : BitVec 64) (words : List (Word K V)) (shift : ℕ) (hash : BitVec 64) (key : K) :
    Option (Option (Node K V)) :=
  if sideBySide header then
    let words := wordsOf header words
    match words.findIdx? (sameWord equal hash key) with
    | none => none
    | some index =>
      let words := words.eraseIdx index
      if words.isEmpty then some none
      else some (some ⟨SIDE_BY_SIDE ||| BitVec.ofNat 64 words.length, words⟩)
  else
    let bit := bitOf hash shift
    let index := indexOf header bit
    if header &&& bit = 0#64 then none
    else
      takenBelow header (wordsOf header words) bit <|
        match _h : (wordsOf header words)[index]? with
        | some (.node belowHeader belowWords) =>
          taken belowHeader belowWords (shift + BITS) hash key
        | some (.entry there) => if same equal there hash key then some none else none
        | none => none
termination_by sizeOf words
decreasing_by exact sizeOf_lt_of_getElem? _h

/-- The collection without the entry under a key equal to `key`. -/
def Trie.without (trie : Trie K V) (hash : BitVec 64) (key : K) : Trie K V :=
  match trie.root with
  | none => trie
  | some node =>
    match taken equal node.header node.words 0 hash key with
    | none => trie
    | some root => ⟨trie.size - 1, root⟩

end Operations

mutual

def gather : Word K V → List (Entry K V)
  | .entry entry => [entry]
  | .node header words => gatherFirst (countOf header) words

/-- Every entry of the first `count` words. -/
def gatherFirst : ℕ → List (Word K V) → List (Entry K V)
  | 0, _ => []
  | _ + 1, [] => []
  | count + 1, word :: words => gather word ++ gatherFirst count words

end

def Trie.entries (trie : Trie K V) : List (Entry K V) :=
  match trie.root with
  | none => []
  | some node => gather node.word

@[irreducible] def mix (word : BitVec 64) : BitVec 64 :=
  let z := word + 0x9e3779b97f4a7c15#64
  let z := (z ^^^ (z >>> 30)) * 0xbf58476d1ce4e5b9#64
  let z := (z ^^^ (z >>> 27)) * 0x94d049bb133111eb#64
  z ^^^ (z >>> 31)

/-- `souther_hash_combine`: a hash with one more word composed into it. -/
def combine (hash word : BitVec 64) : BitVec 64 := mix (hash.rotateLeft 5 ^^^ mix word)

end SoutherNative.HashTrie
