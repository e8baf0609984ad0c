import SoutherNative.Utf8

set_option autoImplicit false

/-!
# The scanner of the JSON parser

What the `json-syntax` crate reads a document's smallest pieces with. `Parser.rest` is the slice
`bytes[at..]` and `Parser.offset` is `at`; `Parser.objects` is the open containers with the
innermost at its head.
-/
namespace SoutherNative.JsonScanner
open Utf8

def deepest : ℕ := 200

/-- A string as the document wrote it, between its quotes and with its escapes. -/
structure Text where
  written : Bytes
  deriving DecidableEq

inductive Event
  | null
  | bool (truth : Bool)
  | number (written : Bytes)
  | string (text : Text)
  | beginArray
  | endArray
  | beginObject
  | key (text : Text)
  | endObject
  deriving DecidableEq

/-- Where a document stopped being one. -/
structure Malformed where
  offset : ℕ
  deriving DecidableEq

inductive Next
  | value (closes : Bool)
  | key (closes : Bool)
  | after
  | done
  deriving DecidableEq

structure Parser where
  rest : Bytes
  offset : ℕ
  next : Next
  objects : List Bool

def byte (c : Char) : UInt8 := UInt8.ofNat c.toNat

def isSpace (b : UInt8) : Bool :=
  b = byte ' ' || b = byte '\t' || b = byte '\n' || b = byte '\r'

def isDigit (b : UInt8) : Bool := byte '0' ≤ b && b ≤ byte '9'

def nibble (digit : UInt8) : Option ℕ :=
  if byte '0' ≤ digit ∧ digit ≤ byte '9' then some (digit - byte '0').toNat
  else if byte 'a' ≤ digit ∧ digit ≤ byte 'f' then some ((digit - byte 'a').toNat + 10)
  else if byte 'A' ≤ digit ∧ digit ≤ byte 'F' then some ((digit - byte 'A').toNat + 10)
  else none

def hex4 (bytes : Bytes) : Option ℕ :=
  match bytes with
  | a :: b :: c :: d :: _ => do
    let a ← nibble a
    let b ← nibble b
    let c ← nibble c
    let d ← nibble d
    return ((a * 16 + b) * 16 + c) * 16 + d
  | _ => none

def isHigh (point : ℕ) : Bool := 0xd800 ≤ point && point < 0xdc00

def isLow (point : ℕ) : Bool := 0xdc00 ≤ point && point < 0xe000

namespace Parser

def new (bytes : Bytes) : Parser := ⟨bytes, 0, .value false, []⟩

def advance (p : Parser) (count : ℕ) : Parser :=
  { p with rest := p.rest.drop count, offset := p.offset + count }

def peek (p : Parser) : Option UInt8 := p.rest.head?

def spaces (p : Parser) : Parser := p.advance (p.rest.takeWhile isSpace).length

def depth (p : Parser) : ℕ := p.objects.length

/-- The bytes from where `p` stands up to where `q` does. -/
def upTo (p q : Parser) : Bytes := p.rest.take (q.offset - p.offset)

def afterAValue (p : Parser) : Parser := { p with next := .after }

def «open» (p : Parser) (object : Bool) : Except Malformed Parser :=
  if p.depth = deepest then .error ⟨p.offset⟩
  else
    let p := { p.advance 1 with objects := object :: p.objects }
    .ok { p with next := if object then .key true else .value true }

def close (p : Parser) : Parser := { p.advance 1 with objects := p.objects.tail }.afterAValue

def keyword (p : Parser) : Bytes → Event → Except Malformed (Event × Parser)
  | [], event => .ok (event, p.afterAValue)
  | expected :: word, event =>
    if p.peek = some expected then (p.advance 1).keyword word event else .error ⟨p.offset⟩

def digits (p : Parser) : Except Malformed Parser :=
  let q := p.advance (p.rest.takeWhile isDigit).length
  if q.offset = p.offset then .error ⟨p.offset⟩ else .ok q

def fraction (p : Parser) : Except Malformed Parser :=
  if p.peek = some (byte '.') then (p.advance 1).digits else .ok p

def exponent (p : Parser) : Except Malformed Parser :=
  if p.peek = some (byte 'e') ∨ p.peek = some (byte 'E') then
    let q := p.advance 1
    if q.peek = some (byte '+') ∨ q.peek = some (byte '-') then (q.advance 1).digits else q.digits
  else .ok p

def whole (p : Parser) : Except Malformed Parser :=
  match p.peek with
  | some b =>
    if b = byte '0' then .ok (p.advance 1)
    else if byte '1' ≤ b ∧ b ≤ byte '9' then p.digits
    else .error ⟨p.offset⟩
  | none => .error ⟨p.offset⟩

def number (p : Parser) : Except Malformed Parser := do
  let p := if p.peek = some (byte '-') then p.advance 1 else p
  let p ← p.whole
  let p ← p.fraction
  p.exponent

def hex4 (p : Parser) : Except Malformed (ℕ × Parser) :=
  match JsonScanner.hex4 p.rest with
  | none => .error ⟨p.offset⟩
  | some point => .ok (point, p.advance 4)

def isPlainEscape (b : UInt8) : Bool :=
  b ∈ [byte '"', byte '\\', byte '/', byte 'b', byte 'f', byte 'n', byte 'r', byte 't']

def escape (p : Parser) : Except Malformed Parser :=
  let backslash := p.offset
  let p := p.advance 1
  match p.peek with
  | some b =>
    if isPlainEscape b then .ok (p.advance 1)
    else if b = byte 'u' then do
      let (point, p) ← (p.advance 1).hex4
      if isHigh point then
        if p.rest.take 2 ≠ [byte '\\', byte 'u'] then .error ⟨p.offset⟩
        else
          let lowAt := (p.advance 2).offset
          let (low, p) ← (p.advance 2).hex4
          if isLow low then .ok p else .error ⟨lowAt⟩
      else if isLow point then .error ⟨backslash⟩
      else .ok p
    else .error ⟨p.offset⟩
  | none => .error ⟨p.offset⟩

end Parser

theorem bind_eq_ok {ε α β : Type} {x : Except ε α} {f : α → Except ε β} {b : β} :
    x >>= f = .ok b ↔ ∃ a, x = .ok a ∧ f a = .ok b := by
  cases x <;> simp [bind, Except.bind]

namespace Parser

/-- `q` is `p` with `taken` read off the front of what was left, and nothing else changed. -/
structure Took (p : Parser) (taken : Bytes) (q : Parser) : Prop where
  rest : p.rest = taken ++ q.rest
  offset : q.offset = p.offset + taken.length
  next : q.next = p.next
  objects : q.objects = p.objects

theorem Took.refl (p : Parser) : Took p [] p := ⟨rfl, rfl, rfl, rfl⟩

theorem Took.trans {p q r : Parser} {xs ys : Bytes} (h : Took p xs q) (k : Took q ys r) :
    Took p (xs ++ ys) r := by
  refine ⟨?_, ?_, k.next.trans h.next, k.objects.trans h.objects⟩
  · rw [h.rest, k.rest, List.append_assoc]
  · rw [k.offset, h.offset, List.length_append, Nat.add_assoc]

theorem Took.length_le {p q : Parser} {xs : Bytes} (h : Took p xs q) :
    q.rest.length ≤ p.rest.length := by
  rw [h.rest, List.length_append]
  omega

theorem took_advance (p : Parser) {taken left : Bytes} (h : p.rest = taken ++ left) :
    Took p taken (p.advance taken.length) := by
  refine ⟨?_, rfl, rfl, rfl⟩
  rw [advance, h, List.drop_left]

theorem took_peek {p : Parser} {b : UInt8} (h : p.peek = some b) : Took p [b] (p.advance 1) := by
  have hr : p.rest = [b] ++ p.rest.tail := by
    cases hp : p.rest with
    | nil => simp [peek, hp] at h
    | cons c rest =>
      simp only [peek, hp, List.head?_cons, Option.some.injEq] at h
      subst h
      rfl
  exact took_advance p hr

theorem Took.upTo {p q : Parser} {xs : Bytes} (h : Took p xs q) : p.upTo q = xs := by
  rw [Parser.upTo, h.rest, h.offset, Nat.add_sub_cancel_left, List.take_left]

theorem took_hex4 {p q : Parser} {point : ℕ} (h : p.hex4 = .ok (point, q)) :
    ∃ a b c d, Took p [a, b, c, d] q ∧ JsonScanner.hex4 [a, b, c, d] = some point := by
  unfold Parser.hex4 at h
  cases hx : JsonScanner.hex4 p.rest with
  | none => simp [hx] at h
  | some point' =>
    simp only [hx, Except.ok.injEq, Prod.mk.injEq] at h
    obtain ⟨rfl, rfl⟩ := h
    match hr : p.rest with
    | [] | [_] | [_, _] | [_, _, _] => simp [hr, JsonScanner.hex4] at hx
    | a :: b :: c :: d :: rest =>
      have ht : Took p [a, b, c, d] (p.advance 4) := took_advance p hr
      rw [hr] at hx
      exact ⟨a, b, c, d, ht, hx⟩

end Parser

end SoutherNative.JsonScanner
