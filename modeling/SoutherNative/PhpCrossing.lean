import Mathlib

set_option autoImplicit false

/-!
# Values crossing between PHP and the library

What the code that the PHP generator writes for a type makes of a PHP value in its place, and of the
words the library answers. PHP's own typing guards a parameter and an element of a list; what stands
inside an array or a `Some` is read as it is.
-/
namespace SoutherNative.PhpCrossing

inductive Primitive
  | INT
  | BOOL
  | STRING
  | DECIMAL
  | DATE
  | TIME
  | DATETIME
  | INSTANT
  deriving DecidableEq

abbrev Bytes := List UInt8

inductive Key
  | int (n : ℤ)
  | string (s : Bytes)
  deriving DecidableEq

/-- A PHP value. `some` is an object of `\Souther\Runtime\Some`, `numbers` one of the runtime's
class for a primitive, `handle` one of a generated class, and whether its handle may be borrowed. -/
inductive PhpValue
  | null
  | bool (is : Bool)
  | int (is : ℤ)
  | string (bytes : Bytes)
  | array (entries : List (Key × PhpValue))
  | some (value : PhpValue)
  | numbers (primitive : Primitive) (parts : List ℤ)
  | handle (name : String) (pointer : ℕ) (borrows : Bool)
  | closure (calls : ℕ)
  | other (what : ℕ)

/-- What PHP makes of a value where it is no value of the type its place is read at, and what the
library makes of text. -/
structure Php where
  cast : PhpValue → Option ℤ
  truthy : PhpValue → Bool
  offset : PhpValue → ℕ → Option PhpValue
  property : PhpValue → Option PhpValue
  instanceOf : String → String → Bool
  instanceOf_self : ∀ name, instanceOf name name = true
  foreign : ∀ names : List String, ∃ name, ∀ other ∈ names, instanceOf name other = false
  admits : Bytes → Option Bytes
  admits_empty : admits [] = some []

inductive Word
  | number (n : ℤ)
  | null
  | text (bytes : Bytes)
  | numbers (primitive : Primitive) (parts : List ℤ)
  | value (pointer : ℕ)
  | carried (primitive : Primitive) (holds : Word)
  | list (elements : List (List Word))
  | function (calls : ℕ)

def indexed (values : List PhpValue) : List (Key × PhpValue) :=
  values.zipIdx.map fun value => (.int value.2, value.1)

/-- `array_is_list`. -/
def isList (entries : List (Key × PhpValue)) : Bool :=
  entries.map Prod.fst = (List.range entries.length).map fun n : ℕ => Key.int n

inductive Whole
  | primitive (is : Primitive)
  | product (fqcn : String)
  | sum (iface codec : String)

def Whole.carried : Whole → Option Primitive
  | .primitive is => some is
  | _ => none

def Primitive.phpType : Primitive → String
  | .INT => "int"
  | .BOOL => "bool"
  | .STRING => "string"
  | .DECIMAL => "\\Souther\\Runtime\\Decimal"
  | .DATE => "\\Souther\\Runtime\\Date"
  | .TIME => "\\Souther\\Runtime\\Time"
  | .DATETIME => "\\Souther\\Runtime\\DateTime"
  | .INSTANT => "\\Souther\\Runtime\\Instant"

def Whole.phpType : Whole → String
  | .primitive is => is.phpType
  | .product fqcn => fqcn
  | .sum iface _ => iface

section Php

variable (php : Php)

/-- What an `int64_t` is made of. -/
def Php.toInt : PhpValue → Option ℤ
  | .null => some 0
  | .bool is => some (if is then 1 else 0)
  | .int is => some is
  | value => php.cast value

/-- What `? 1 : 0` takes a value as. -/
def Php.isTrue : PhpValue → Bool
  | .null => false
  | .bool is => is
  | .int is => is ≠ 0
  | value => php.truthy value

/-- `$value[at]`, nothing where it throws. A place an array has not is null. -/
def Php.at : PhpValue → ℕ → Option PhpValue
  | .array entries, place => some ((entries.lookup (.int place)).getD .null)
  | value, place => php.offset value place

/-- `$value->value`, nothing where it throws. What is no object has no property, which is null. -/
def Php.held : PhpValue → Option PhpValue
  | .some value => some value
  | .null | .bool _ | .int _ | .string _ | .array _ => some .null
  | value => php.property value

def Primitive.holds : Primitive → PhpValue → Bool
  | .INT, .int _ => true
  | .BOOL, .bool _ => true
  | .STRING, .string _ => true
  | .INT, _ | .BOOL, _ | .STRING, _ => false
  | is, .numbers primitive _ => is = primitive
  | _, _ => false

def Whole.holds : Whole → PhpValue → Bool
  | .primitive is, value => is.holds value
  | .product fqcn, .handle name _ _ => php.instanceOf name fqcn
  | .sum iface _, .handle name _ _ => php.instanceOf name iface
  | _, _ => false

/-- `nativeHandle()->borrow`, nothing where it throws. -/
def borrowed : PhpValue → Option Word
  | .handle _ pointer true => some (.value pointer)
  | _ => none

/-- What a `Session` makes of a value it is handed, which it types. -/
def Primitive.given : Primitive → PhpValue → Option Word
  | .INT, value => (php.toInt value).map .number
  | .BOOL, value => some (.number (if php.isTrue value then 1 else 0))
  | .STRING, .string bytes => (php.admits bytes).map .text
  | .STRING, _ => none
  | is, value@(.numbers primitive parts) =>
    if is.holds value then some (.numbers primitive parts) else none
  | _, _ => none

def Whole.given : Whole → PhpValue → Option Word
  | .primitive is, value => is.given php value
  | _, value => borrowed value

def Primitive.of : Primitive → Word → Option PhpValue
  | .INT, .number n => some (.int n)
  | .BOOL, .number n => some (.bool (n ≠ 0))
  | .STRING, .text bytes => some (.string bytes)
  | .INT, _ | .BOOL, _ | .STRING, _ => none
  | is, .numbers primitive parts => if is = primitive then some (.numbers primitive parts) else none
  | _, _ => none

def Whole.of (decides : String → Word → String) : Whole → Word → Option PhpValue
  | .primitive is, word => is.of word
  | .product fqcn, .value pointer => some (.handle fqcn pointer true)
  | .sum _ codec, word@(.value pointer) => some (.handle (decides codec word) pointer true)
  | _, _ => none

end Php

inductive Given
  | whole (is : Whole)
  | oneOf (first : Whole) (rest : List Whole)
  | optional (of : Given)
  | tuple (members : List Given)
  | list (element : Given)
  | function (slot : String)

def Whole.absent : Whole → Word
  | .primitive .INT | .primitive .BOOL => .number 0
  | _ => .null

mutual

def Given.absent : Given → List Word
  | .whole is => [is.absent]
  | .oneOf _ _ | .list _ | .function _ => [.null]
  | .optional of => .number 0 :: of.absent
  | .tuple members => absentEach members

def absentEach : List Given → List Word
  | [] => []
  | member :: members => member.absent ++ absentEach members

end

def Given.nullable : Given → Bool
  | .optional _ => true
  | _ => false

mutual

def Given.width : Given → ℕ
  | .whole _ | .oneOf _ _ | .list _ | .function _ => 1
  | .optional of => of.width + 1
  | .tuple members => widthEach members

def widthEach : List Given → ℕ
  | [] => 0
  | member :: members => member.width + widthEach members

end

structure PhpType where
  marks : ℕ
  names : List String
  deriving DecidableEq

def PhpType.Taken (type : PhpType) : Prop :=
  type.names ≠ [] ∧ (type.marks = 0 ∨ type.marks = 1 ∧ type.names.length = 1)

def SOME : String := "\\Souther\\Runtime\\Some"

def Given.phpType : Given → PhpType
  | .whole is => ⟨0, [is.phpType]⟩
  | .oneOf first rest => ⟨0, (first :: rest).map Whole.phpType⟩
  | .optional of =>
    if of.nullable then ⟨1, [SOME]⟩ else ⟨of.phpType.marks + 1, of.phpType.names⟩
  | .tuple _ | .list _ => ⟨0, ["array"]⟩
  | .function _ => ⟨0, ["\\Closure"]⟩

section Handing

variable (php : Php)

/-- Whether PHP takes a value where its type is `phpType`. -/
def Given.typed : Given → PhpValue → Bool
  | .whole is, value => is.holds php value
  | .oneOf first rest, value => (first :: rest).any fun member => member.holds php value
  | .optional _, .null => true
  | .optional of, value =>
    if of.nullable then (match value with | .some _ => true | _ => false) else of.typed value
  | .tuple _, .array _ | .list _, .array _ => true
  | .function _, .closure _ => true
  | _, _ => false

def oneOfGiven (members : List Whole) (value : PhpValue) : Option Word :=
  match members.find? fun member => member.carried.isSome && member.holds php value with
  | some member => (member.given php value).map fun word =>
    (member.carried.map fun is => Word.carried is word).getD word
  | none => if members.any fun member => member.carried.isNone then borrowed value else none

mutual

def Given.given : Given → PhpValue → Option (List Word)
  | .whole is, value => (is.given php value).map fun word => [word]
  | .oneOf first rest, value => (oneOfGiven php (first :: rest) value).map fun word => [word]
  | .optional of, .null => some (.number 0 :: of.absent)
  | .optional of, value =>
    (if of.nullable then php.held value else some value).bind fun held =>
      (of.given held).map fun words => .number 1 :: words
  | .tuple members, value => givenEach members value 0
  | .list element, .array entries =>
    if isList entries then
      (entries.mapM fun entry =>
        if element.typed php entry.2 then element.given entry.2 else none).map
          fun elements => [.list elements]
    else none
  | .list _, _ => none
  | .function _, .closure calls => some [.function calls]
  | .function _, _ => none

def givenEach : List Given → PhpValue → ℕ → Option (List Word)
  | [], _, _ => some []
  | member :: members, value, place =>
    (php.at value place).bind fun held => (member.given held).bind fun words =>
      (givenEach members value (place + 1)).map fun rest => words ++ rest

end

mutual

/-- `holds`, which a generated binding asks of what an implementation answers. -/
def Given.holds : Given → PhpValue → Bool
  | .whole is, value => is.holds php value
  | .oneOf first rest, value => (first :: rest).any fun member => member.holds php value
  | .optional _, .null => true
  | .optional of, value =>
    if of.nullable then (match value with | .some held => of.holds held | _ => false)
    else of.holds value
  | .tuple members, .array entries =>
    isList entries && decide (entries.length = members.length) &&
      holdsEach members (.array entries) 0
  | .list _, .array _ => true
  | .function _, .closure _ => true
  | _, _ => false

def holdsEach : List Given → PhpValue → ℕ → Bool
  | [], _, _ => true
  | member :: members, value, place =>
    (php.at value place).any (fun held => member.holds held) &&
      holdsEach members value (place + 1)

end

def Given.answered (given : Given) (value : PhpValue) : Option (List Word) :=
  if given.holds php value then given.given php value else none

def Given.handedOver (given : Given) (value : PhpValue) : Option (List Word) :=
  if given.typed php value then given.given php value else none

/-- What a generated function hands the library of what it is called with, nothing where it throws
first. PHP refuses a call with too few and drops what is more. -/
def call : List Given → List PhpValue → Option (List Word)
  | [], _ => some []
  | _ :: _, [] => none
  | take :: takes, value :: values =>
    (take.handedOver php value).bind fun words => (call takes values).map fun rest => words ++ rest

end Handing

section Words

variable (php : Php)

inductive IsWord : Whole → PhpValue → Word → Prop
  | int (n : ℤ) : IsWord (.primitive .INT) (.int n) (.number n)
  | bool (is : Bool) : IsWord (.primitive .BOOL) (.bool is) (.number (if is then 1 else 0))
  | string {bytes text : Bytes} : php.admits bytes = some text →
    IsWord (.primitive .STRING) (.string bytes) (.text text)
  | numbers {is : Primitive} (parts : List ℤ) : is ≠ .INT → is ≠ .BOOL → is ≠ .STRING →
    IsWord (.primitive is) (.numbers is parts) (.numbers is parts)
  | product {fqcn name : String} (pointer : ℕ) : php.instanceOf name fqcn = true →
    IsWord (.product fqcn) (.handle name pointer true) (.value pointer)
  | sum {iface codec name : String} (pointer : ℕ) : php.instanceOf name iface = true →
    IsWord (.sum iface codec) (.handle name pointer true) (.value pointer)

mutual

/-- A PHP value is one of a type, and these are its words: an optional's say first whether there is
a value, at each depth. -/
inductive Are : Given → PhpValue → List Word → Prop
  | whole {is : Whole} {value : PhpValue} {word : Word} : IsWord php is value word →
    Are (.whole is) value [word]
  | carried {first : Whole} {rest : List Whole} {is : Primitive} {value : PhpValue} {word : Word} :
    .primitive is ∈ first :: rest → IsWord php (.primitive is) value word →
    Are (.oneOf first rest) value [.carried is word]
  | declared {first member : Whole} {rest : List Whole} {value : PhpValue} {word : Word} :
    member ∈ first :: rest → member.carried = none → IsWord php member value word →
    Are (.oneOf first rest) value [word]
  | absent {of : Given} : Are (.optional of) .null (.number 0 :: of.absent)
  | wrapped {of : Given} {held : PhpValue} {words : List Word} : of.nullable = true →
    Are of held words → Are (.optional of) (.some held) (.number 1 :: words)
  | present {of : Given} {value : PhpValue} {words : List Word} : of.nullable = false →
    Are of value words → Are (.optional of) value (.number 1 :: words)
  | tuple {members : List Given} {values : List PhpValue} {words : List Word} :
    AreEach members values words → Are (.tuple members) (.array (indexed values)) words
  | list {element : Given} {values : List PhpValue} {elements : List (List Word)} :
    AreAll element values elements →
    Are (.list element) (.array (indexed values)) [.list elements]
  | function {slot : String} {calls : ℕ} : Are (.function slot) (.closure calls) [.function calls]

inductive AreEach : List Given → List PhpValue → List Word → Prop
  | nil : AreEach [] [] []
  | cons {member : Given} {members : List Given} {value : PhpValue} {values : List PhpValue}
    {words rest : List Word} : Are member value words → AreEach members values rest →
    AreEach (member :: members) (value :: values) (words ++ rest)

inductive AreAll : Given → List PhpValue → List (List Word) → Prop
  | nil {element : Given} : AreAll element [] []
  | cons {element : Given} {value : PhpValue} {values : List PhpValue} {words : List Word}
    {rest : List (List Word)} : Are element value words → AreAll element values rest →
    AreAll element (value :: values) (words :: rest)

end

end Words

theorem indexed_snd (entries : List (Key × PhpValue)) (h : isList entries = true) :
    indexed (entries.map Prod.snd) = entries := by
  have hkeys := of_decide_eq_true h
  apply List.ext_getElem
  · simp [indexed]
  · intro n hn hn'
    have hkey := congrArg (fun keys => keys[n]?) hkeys
    simp only [List.getElem?_map, List.getElem?_eq_getElem hn', Option.map_some] at hkey
    rw [List.getElem?_range hn', Option.map_some] at hkey
    simp only [indexed, List.getElem_map, List.getElem_zipIdx, Nat.zero_add]
    exact Prod.ext (Option.some.inj hkey).symm rfl

theorem lookup_indexed (values : List PhpValue) (place : ℕ) :
    (indexed values).lookup (.int place) = values[place]? := by
  have hfrom : ∀ start : ℕ, ((values.zipIdx start).map fun value =>
      ((.int value.2 : Key), value.1)).lookup (.int ((start + place : ℕ) : ℤ)) =
        values[place]? := by
    induction values generalizing place with
    | nil => exact fun start => rfl
    | cons value values ih =>
      intro start
      rw [List.zipIdx_cons, List.map_cons, List.lookup_cons]
      cases place with
      | zero => simp
      | succ place =>
        have hne : ((Key.int ((start + (place + 1) : ℕ) : ℤ)) == Key.int (start : ℤ)) = false := by
          rw [beq_eq_false_iff_ne, ne_eq, Key.int.injEq]
          omega
        have hnext := ih place (start + 1)
        rw [hne, List.getElem?_cons_succ, ← hnext, Nat.add_right_comm, Nat.add_assoc]
  have hzero := hfrom 0
  rwa [Nat.zero_add] at hzero

theorem at_indexed (php : Php) (front rest : List PhpValue) (value : PhpValue) :
    php.at (.array (indexed (front ++ value :: rest))) front.length = some value := by
  rw [Php.at, lookup_indexed]
  simp

theorem indexed_inj {values others : List PhpValue} (h : indexed values = indexed others) :
    values = others := by
  apply List.ext_getElem?
  intro place
  rw [← lookup_indexed, ← lookup_indexed, h]

theorem isList_indexed (values : List PhpValue) : isList (indexed values) = true := by
  apply decide_eq_true
  apply List.ext_getElem
  · simp [indexed]
  · intro n hn hn'
    simp [indexed]

section Lengths

variable {php : Php}

theorem given_optional {of : Given} {value : PhpValue} (hvalue : value ≠ .null) :
    (Given.optional of).given php value =
      (if of.nullable then php.held value else some value).bind fun held =>
        (of.given php held).map fun words => .number 1 :: words := by
  cases value with
  | null => exact absurd rfl hvalue
  | _ => rfl

theorem typed_optional {of : Given} {value : PhpValue} (hvalue : value ≠ .null) :
    (Given.optional of).typed php value =
      if of.nullable then (match value with | .some _ => true | _ => false)
      else of.typed php value := by
  cases value with
  | null => exact absurd rfl hvalue
  | _ => rfl

mutual

theorem length_absent (g : Given) : g.absent.length = g.width := by
  cases g with
  | whole is | oneOf first rest | list element | function slot => rfl
  | optional of => rw [Given.absent, Given.width, List.length_cons, length_absent of]
  | tuple members => exact length_absentEach members

theorem length_absentEach (members : List Given) :
    (absentEach members).length = widthEach members := by
  cases members with
  | nil => rfl
  | cons member members =>
    rw [absentEach, widthEach, List.length_append, length_absent member,
      length_absentEach members]

end

mutual

/-- A value has as many words as its type says. -/
theorem Are.length (g : Given) {value : PhpValue} {words : List Word} (h : Are php g value words) :
    words.length = g.width := by
  cases g with
  | whole is => cases h; rfl
  | oneOf first rest => cases h <;> rfl
  | optional of =>
    cases h with
    | absent => rw [List.length_cons, length_absent, Given.width]
    | wrapped hnullable hheld => rw [List.length_cons, Are.length of hheld, Given.width]
    | present hnullable hvalue => rw [List.length_cons, Are.length of hvalue, Given.width]
  | tuple members =>
    cases h with
    | tuple heach => exact AreEach.length members heach
  | list element => cases h; rfl
  | function slot => cases h; rfl

theorem AreEach.length (members : List Given) {values : List PhpValue} {words : List Word}
    (h : AreEach php members values words) : words.length = widthEach members := by
  cases members with
  | nil => cases h; rfl
  | cons member members =>
    cases h with
    | cons hfirst hrest =>
      rw [List.length_append, Are.length member hfirst, AreEach.length members hrest, widthEach]

end

mutual

/-- As many words are handed over as the type says, whatever value they are made of. -/
theorem length_given (g : Given) {value : PhpValue} {words : List Word}
    (h : g.given php value = some words) : words.length = g.width := by
  cases g with
  | whole is | oneOf first rest =>
    obtain ⟨word, -, rfl⟩ := Option.map_eq_some_iff.mp h
    rfl
  | optional of =>
    by_cases hvalue : value = .null
    · subst hvalue
      obtain rfl := Option.some.inj h
      rw [List.length_cons, length_absent, Given.width]
    · rw [given_optional hvalue] at h
      obtain ⟨held, -, hheld⟩ := Option.bind_eq_some_iff.mp h
      obtain ⟨words, hwords, rfl⟩ := Option.map_eq_some_iff.mp hheld
      rw [List.length_cons, length_given of hwords, Given.width]
  | tuple members => exact length_givenEach members h
  | list element =>
    cases value with
    | array entries =>
      rw [Given.given] at h
      split_ifs at h
      obtain ⟨elements, -, rfl⟩ := Option.map_eq_some_iff.mp h
      rfl
    | _ => cases h
  | function slot =>
    cases value with
    | closure calls =>
      obtain rfl := Option.some.inj h
      rfl
    | _ => cases h

theorem length_givenEach (members : List Given) {value : PhpValue} {place : ℕ} {words : List Word}
    (h : givenEach php members value place = some words) : words.length = widthEach members := by
  cases members with
  | nil =>
    obtain rfl := Option.some.inj h
    rfl
  | cons member members =>
    rw [givenEach] at h
    obtain ⟨held, -, hheld⟩ := Option.bind_eq_some_iff.mp h
    obtain ⟨words, hwords, hafter⟩ := Option.bind_eq_some_iff.mp hheld
    obtain ⟨rest, hrest, rfl⟩ := Option.map_eq_some_iff.mp hafter
    rw [List.length_append, length_given member hwords, length_givenEach members hrest, widthEach]

end

theorem length_handedOver {g : Given} {value : PhpValue} {words : List Word}
    (h : g.handedOver php value = some words) : words.length = g.width := by
  rw [Given.handedOver] at h
  split_ifs at h
  exact length_given g h

theorem length_call {takes : List Given} {values : List PhpValue} {words : List Word}
    (h : call php takes values = some words) : words.length = widthEach takes := by
  induction takes generalizing values words with
  | nil =>
    obtain rfl := Option.some.inj h
    rfl
  | cons take takes ih =>
    cases values with
    | nil => cases h
    | cons value values =>
      obtain ⟨first, hfirst, hafter⟩ := Option.bind_eq_some_iff.mp h
      obtain ⟨rest, hrest, rfl⟩ := Option.map_eq_some_iff.mp hafter
      rw [List.length_append, length_handedOver hfirst, ih hrest, widthEach]

end Lengths

end SoutherNative.PhpCrossing
