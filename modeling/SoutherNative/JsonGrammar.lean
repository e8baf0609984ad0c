import SoutherNative.JsonScanner

set_option autoImplicit false

/-!
# The grammar of a document

RFC 8259 as relations between a document's tree and the bytes it is written as. A string is text:
it is written in UTF-8, and an escape of half a surrogate pair is followed by its other half.
-/
namespace SoutherNative.JsonGrammar
open Utf8 JsonScanner

inductive Escape : Bytes → Char → Prop
  | quote : Escape [byte '\\', byte '"'] '"'
  | backslash : Escape [byte '\\', byte '\\'] '\\'
  | slash : Escape [byte '\\', byte '/'] '/'
  | backspace : Escape [byte '\\', byte 'b'] (Char.ofNat 0x08)
  | formFeed : Escape [byte '\\', byte 'f'] (Char.ofNat 0x0c)
  | newline : Escape [byte '\\', byte 'n'] '\n'
  | carriageReturn : Escape [byte '\\', byte 'r'] '\r'
  | tab : Escape [byte '\\', byte 't'] '\t'
  | unit {a b c d : UInt8} {point : ℕ} : hex4 [a, b, c, d] = some point →
      isHigh point = false → isLow point = false →
      Escape [byte '\\', byte 'u', a, b, c, d] (Char.ofNat point)
  | pair {a b c d e f g h : UInt8} {high low : ℕ} : hex4 [a, b, c, d] = some high →
      hex4 [e, f, g, h] = some low → isHigh high = true → isLow low = true →
      Escape [byte '\\', byte 'u', a, b, c, d, byte '\\', byte 'u', e, f, g, h]
        (Char.ofNat (0x10000 + (high - 0xd800) * 0x400 + (low - 0xdc00)))

inductive Piece : Bytes → Char → Prop
  | plain (c : Char) : 0x20 ≤ c.toNat → c ≠ '"' → c ≠ '\\' → Piece (String.utf8EncodeChar c) c
  | escape {w : Bytes} {c : Char} : Escape w c → Piece w c

inductive Spells : Bytes → List Char → Prop
  | nil : Spells [] []
  | cons {w ws : Bytes} {c : Char} {cs : List Char} :
      Piece w c → Spells ws cs → Spells (w ++ ws) (c :: cs)

def IsText (written : Bytes) : Prop := ∃ cs, Spells written cs

def Digits (ds : Bytes) : Prop := ds ≠ [] ∧ ∀ b ∈ ds, isDigit b = true

def Minus (m : Bytes) : Prop := m = [] ∨ m = [byte '-']

def Whole (w : Bytes) : Prop :=
  w = [byte '0'] ∨
    ∃ d ds, w = d :: ds ∧ isDigit d = true ∧ d ≠ byte '0' ∧ ∀ b ∈ ds, isDigit b = true

def Fraction (f : Bytes) : Prop := f = [] ∨ ∃ ds, f = byte '.' :: ds ∧ Digits ds

def Sign (s : Bytes) : Prop := s = [] ∨ s = [byte '+'] ∨ s = [byte '-']

def Exponent (e : Bytes) : Prop :=
  e = [] ∨ ∃ mark sign ds, e = mark :: sign ++ ds ∧
    (mark = byte 'e' ∨ mark = byte 'E') ∧ Sign sign ∧ Digits ds

def IsNumber (n : Bytes) : Prop :=
  ∃ m w f e, n = m ++ w ++ f ++ e ∧ Minus m ∧ Whole w ∧ Fraction f ∧ Exponent e

def Spaces (w : Bytes) : Prop := ∀ b ∈ w, isSpace b = true

inductive Doc
  | null
  | bool (truth : Bool)
  | number (written : Bytes)
  | string (text : Text)
  | array (items : List Doc)
  | object (members : List (Text × Doc))

def word (w : String) : Bytes := w.toList.map byte

def quoted (text : Text) : Bytes := byte '"' :: text.written ++ [byte '"']

mutual

inductive Writes : Doc → Bytes → Prop
  | null : Writes .null (word "null")
  | true : Writes (.bool true) (word "true")
  | false : Writes (.bool false) (word "false")
  | number {n : Bytes} : IsNumber n → Writes (.number n) n
  | string {text : Text} : IsText text.written → Writes (.string text) (quoted text)
  | emptyArray {w : Bytes} : Spaces w → Writes (.array []) (byte '[' :: w ++ [byte ']'])
  | array {items : List Doc} {bs w : Bytes} : Elements items bs → Spaces w →
      Writes (.array items) (byte '[' :: bs ++ w ++ [byte ']'])
  | emptyObject {w : Bytes} : Spaces w → Writes (.object []) (byte '{' :: w ++ [byte '}'])
  | object {members : List (Text × Doc)} {bs w : Bytes} : Members members bs → Spaces w →
      Writes (.object members) (byte '{' :: bs ++ w ++ [byte '}'])

inductive Elements : List Doc → Bytes → Prop
  | one {w b : Bytes} {d : Doc} : Spaces w → Writes d b → Elements [d] (w ++ b)
  | more {ds : List Doc} {bs w v b : Bytes} {d : Doc} : Elements ds bs → Spaces w → Spaces v →
      Writes d b → Elements (ds ++ [d]) (bs ++ w ++ byte ',' :: v ++ b)

inductive Members : List (Text × Doc) → Bytes → Prop
  | one {key : Text} {d : Doc} {w u v b : Bytes} : Spaces w → IsText key.written → Spaces u →
      Spaces v → Writes d b → Members [(key, d)] (w ++ quoted key ++ u ++ byte ':' :: v ++ b)
  | more {ms : List (Text × Doc)} {key : Text} {d : Doc} {bs x w u v b : Bytes} :
      Members ms bs → Spaces x → Spaces w → IsText key.written → Spaces u → Spaces v →
      Writes d b →
      Members (ms ++ [(key, d)])
        (bs ++ x ++ byte ',' :: w ++ quoted key ++ u ++ byte ':' :: v ++ b)

end

def Document (d : Doc) (bytes : Bytes) : Prop :=
  ∃ w b v, bytes = w ++ b ++ v ∧ Spaces w ∧ Writes d b ∧ Spaces v

mutual

def Doc.events : Doc → List Event
  | .null => [.null]
  | .bool truth => [.bool truth]
  | .number written => [.number written]
  | .string text => [.string text]
  | .array items => .beginArray :: itemEvents items ++ [.endArray]
  | .object members => .beginObject :: memberEvents members ++ [.endObject]

def itemEvents : List Doc → List Event
  | [] => []
  | d :: ds => d.events ++ itemEvents ds

def memberEvents : List (Text × Doc) → List Event
  | [] => []
  | (key, d) :: ms => .key key :: d.events ++ memberEvents ms

end

mutual

def Doc.depth : Doc → ℕ
  | .array items => 1 + itemsDepth items
  | .object members => 1 + membersDepth members
  | _ => 0

def itemsDepth : List Doc → ℕ
  | [] => 0
  | d :: ds => max d.depth (itemsDepth ds)

def membersDepth : List (Text × Doc) → ℕ
  | [] => 0
  | (_, d) :: ms => max d.depth (membersDepth ms)

end

@[simp]
theorem itemEvents_append (ds es : List Doc) :
    itemEvents (ds ++ es) = itemEvents ds ++ itemEvents es := by
  induction ds with
  | nil => rfl
  | cons d ds ih => simp [itemEvents, ih]

@[simp]
theorem memberEvents_append (ms ns : List (Text × Doc)) :
    memberEvents (ms ++ ns) = memberEvents ms ++ memberEvents ns := by
  induction ms with
  | nil => rfl
  | cons m ms ih =>
    obtain ⟨key, d⟩ := m
    simp [memberEvents, ih]

@[simp]
theorem itemsDepth_append (ds es : List Doc) :
    itemsDepth (ds ++ es) = max (itemsDepth ds) (itemsDepth es) := by
  induction ds with
  | nil => simp [itemsDepth]
  | cons d ds ih => simp [itemsDepth, ih, max_assoc]

@[simp]
theorem membersDepth_append (ms ns : List (Text × Doc)) :
    membersDepth (ms ++ ns) = max (membersDepth ms) (membersDepth ns) := by
  induction ms with
  | nil => simp [membersDepth]
  | cons m ms ih =>
    obtain ⟨key, d⟩ := m
    simp [membersDepth, ih, max_assoc]

end SoutherNative.JsonGrammar
