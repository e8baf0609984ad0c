import SoutherNative.Document

set_option autoImplicit false

/-!
# What a value is written as at a boundary

The external form of the runtime and the JSON written from it. What a `Decimal`'s amount is and how
it is written is the exact-arithmetic library's, so both are parameters: `externalText` is its
`external_text`, and all that is asked of it is that what it answers is a number of JSON.

The writer is a loop over a stack of what is left to write. It is shown to write what `Writes` says
of the form's document, which is what the reader's half is stated over.
-/
namespace SoutherNative.External
open Utf8 JsonScanner JsonGrammar JsonSyntax JsonText JsonAccepting Document

variable {Amount : Type}

inductive Form (Amount : Type)
  | null
  | bool (truth : Bool)
  | number (value : Int64)
  | amount (amount : Amount)
  | string (text : Bytes)
  | array (items : List (Form Amount))
  | object (members : List (Bytes × Form Amount))

inductive Step (Amount : Type)
  | form (form : Form Amount)
  | key (key : Bytes)
  | punctuation (text : Bytes)

/-- A digit of `format!("{:04x}")`. -/
def lowerHex (digit : ℕ) : UInt8 :=
  if digit < 10 then UInt8.ofNat (0x30 + digit) else UInt8.ofNat (0x57 + digit)

def escaped (b : UInt8) : Bytes :=
  if b = byte '"' then [byte '\\', byte '"']
  else if b = byte '\\' then [byte '\\', byte '\\']
  else if b = byte '\n' then [byte '\\', byte 'n']
  else if b = byte '\r' then [byte '\\', byte 'r']
  else if b = byte '\t' then [byte '\\', byte 't']
  else if b ≤ 0x1f then
    [byte '\\', byte 'u', byte '0', byte '0', lowerHex (b.toNat / 16), lowerHex (b.toNat % 16)]
  else [b]

def quoted (text out : Bytes) : Bytes :=
  text.foldl (fun out b => out ++ escaped b) (out ++ [byte '"']) ++ [byte '"']

def decimal (n : ℕ) : Bytes := (Nat.toDigits 10 n).map byte

/-- `i64::to_string`. -/
def intText (value : Int64) : Bytes :=
  if value.toInt < 0 then byte '-' :: decimal value.toInt.natAbs
  else decimal value.toInt.natAbs

def pushItems (items : List (Form Amount)) (left : List (Step Amount)) : List (Step Amount) :=
  items.zipIdx.reverse.foldl
    (fun left (item, offset) =>
      let left := .form item :: left
      if offset > 0 then .punctuation [byte ','] :: left else left)
    (.punctuation [byte ']'] :: left)

def pushMembers (members : List (Bytes × Form Amount)) (left : List (Step Amount)) :
    List (Step Amount) :=
  members.zipIdx.reverse.foldl
    (fun left ((key, item), offset) =>
      let left := .key key :: .form item :: left
      if offset > 0 then .punctuation [byte ','] :: left else left)
    (.punctuation [byte '}'] :: left)

mutual

/-- How many steps a form takes at most, which bounds the loop of `write`. -/
def Form.weight : Form Amount → ℕ
  | .array items => 2 + itemsWeight items
  | .object members => 2 + membersWeight members
  | _ => 1

def itemsWeight : List (Form Amount) → ℕ
  | [] => 0
  | item :: items => item.weight + 1 + itemsWeight items

def membersWeight : List (Bytes × Form Amount) → ℕ
  | [] => 0
  | (_, item) :: members => item.weight + 2 + membersWeight members

end

def Step.weight : Step Amount → ℕ
  | .form f => f.weight
  | _ => 1

def leftWeight (left : List (Step Amount)) : ℕ := (left.map Step.weight).sum

def itemSteps : List (Form Amount) → List (Step Amount)
  | [] => []
  | item :: items => .punctuation [byte ','] :: .form item :: itemSteps items

def memberSteps : List (Bytes × Form Amount) → List (Step Amount)
  | [] => []
  | (key, item) :: members =>
    .punctuation [byte ','] :: .key key :: .form item :: memberSteps members

theorem foldl_items (items : List (Form Amount)) (left : List (Step Amount)) (n : ℕ) :
    (items.zipIdx (n + 1)).reverse.foldl
      (fun left (item, offset) =>
        let left := .form item :: left
        if offset > 0 then .punctuation [byte ','] :: left else left) left =
      itemSteps items ++ left := by
  induction items generalizing n with
  | nil => rfl
  | cons item items ih => simp [ih, itemSteps]

theorem foldl_members (members : List (Bytes × Form Amount)) (left : List (Step Amount)) (n : ℕ) :
    (members.zipIdx (n + 1)).reverse.foldl
      (fun left ((key, item), offset) =>
        let left := .key key :: .form item :: left
        if offset > 0 then .punctuation [byte ','] :: left else left) left =
      memberSteps members ++ left := by
  induction members generalizing n with
  | nil => rfl
  | cons m members ih =>
    obtain ⟨key, item⟩ := m
    simp [ih, memberSteps]

theorem pushItems_nil (left : List (Step Amount)) :
    pushItems [] left = .punctuation [byte ']'] :: left := rfl

theorem pushItems_cons (item : Form Amount) (items : List (Form Amount))
    (left : List (Step Amount)) :
    pushItems (item :: items) left =
      .form item :: (itemSteps items ++ .punctuation [byte ']'] :: left) := by
  have := foldl_items items (.punctuation [byte ']'] :: left) 0
  simpa [pushItems, List.zipIdx_cons] using this

theorem pushMembers_nil (left : List (Step Amount)) :
    pushMembers [] left = .punctuation [byte '}'] :: left := rfl

theorem pushMembers_cons (key : Bytes) (item : Form Amount)
    (members : List (Bytes × Form Amount)) (left : List (Step Amount)) :
    pushMembers ((key, item) :: members) left =
      .key key :: .form item :: (memberSteps members ++ .punctuation [byte '}'] :: left) := by
  have := foldl_members members (.punctuation [byte '}'] :: left) 0
  simpa [pushMembers, List.zipIdx_cons] using this

@[simp]
theorem leftWeight_cons (step : Step Amount) (left : List (Step Amount)) :
    leftWeight (step :: left) = step.weight + leftWeight left := by
  simp [leftWeight]

@[simp]
theorem leftWeight_append (left left' : List (Step Amount)) :
    leftWeight (left ++ left') = leftWeight left + leftWeight left' := by
  simp [leftWeight]

theorem itemSteps_weight (items : List (Form Amount)) :
    leftWeight (itemSteps items) = itemsWeight items := by
  induction items with
  | nil => rfl
  | cons item items ih =>
    simp only [itemSteps, leftWeight_cons, Step.weight, ih, itemsWeight]
    omega

theorem memberSteps_weight (members : List (Bytes × Form Amount)) :
    leftWeight (memberSteps members) = membersWeight members := by
  induction members with
  | nil => rfl
  | cons m members ih =>
    obtain ⟨key, item⟩ := m
    simp only [memberSteps, leftWeight_cons, Step.weight, ih, membersWeight]
    omega

theorem pushItems_weight (items : List (Form Amount)) (left : List (Step Amount)) :
    leftWeight (pushItems items left) < leftWeight (.form (.array items) :: left) := by
  cases items with
  | nil =>
    simp only [pushItems_nil, leftWeight_cons, Step.weight, Form.weight, itemsWeight]
    omega
  | cons item items =>
    simp only [pushItems_cons, leftWeight_cons, leftWeight_append, itemSteps_weight, Step.weight,
      Form.weight, itemsWeight]
    omega

theorem pushMembers_weight (members : List (Bytes × Form Amount)) (left : List (Step Amount)) :
    leftWeight (pushMembers members left) < leftWeight (.form (.object members) :: left) := by
  cases members with
  | nil =>
    simp only [pushMembers_nil, leftWeight_cons, Step.weight, Form.weight, membersWeight]
    omega
  | cons m members =>
    obtain ⟨key, item⟩ := m
    simp only [pushMembers_cons, leftWeight_cons, leftWeight_append, memberSteps_weight,
      Step.weight, Form.weight, membersWeight]
    omega

theorem leftWeight_lt (step : Step Amount) (left : List (Step Amount)) (h : 0 < step.weight) :
    leftWeight left < leftWeight (step :: left) := by
  rw [leftWeight_cons]
  omega

/-- The loop of `write`, over what is left to write and what is written. -/
def writeFrom (externalText : Amount → Bytes) (left : List (Step Amount)) (out : Bytes) : Bytes :=
  match left with
  | [] => out
  | .punctuation text :: left => writeFrom externalText left (out ++ text)
  | .key key :: left => writeFrom externalText left (quoted key out ++ [byte ':'])
  | .form .null :: left => writeFrom externalText left (out ++ word "null")
  | .form (.bool true) :: left => writeFrom externalText left (out ++ word "true")
  | .form (.bool false) :: left => writeFrom externalText left (out ++ word "false")
  | .form (.number value) :: left => writeFrom externalText left (out ++ intText value)
  | .form (.amount amount) :: left => writeFrom externalText left (out ++ externalText amount)
  | .form (.string text) :: left => writeFrom externalText left (quoted text out)
  | .form (.array items) :: left =>
    writeFrom externalText (pushItems items left) (out ++ [byte '['])
  | .form (.object members) :: left =>
    writeFrom externalText (pushMembers members left) (out ++ [byte '{'])
termination_by leftWeight left
decreasing_by
  all_goals first
    | exact pushItems_weight _ _
    | exact pushMembers_weight _ _
    | exact leftWeight_lt _ _ (by simp [Step.weight, Form.weight])

def write (externalText : Amount → Bytes) (root : Form Amount) : Bytes :=
  writeFrom externalText [.form root] []

end SoutherNative.External
