import SoutherNative.Letters

set_option autoImplicit false

/-!
# Building text within what a carrier holds

The operations of the text crate that build a string out of others, over the canonical data that
normalization reads. A text is its code points. What is built is joined from runs through `Joined`,
which spends its capacity on each run as it is handed over and normalizes at the seam. What an
operation answers and how long that is follow from the runs it hands over.
-/
namespace SoutherNative.TextOperations
open Normalization

abbrev Text := List Char

/-- The most an `i64` holds. -/
def I64_MAX : ℤ := 2 ^ 63 - 1

/-- A budget of Unicode code points of text. -/
structure Capacity where
  codePoints : ℤ
  deriving DecidableEq

def Capacity.holds (capacity : Capacity) (codePoints : ℤ) : Bool := codePoints ≤ capacity.codePoints

def codePoints (text : Text) : ℤ := text.length

def saturatingAdd (a b : ℤ) : ℤ := min (a + b) I64_MAX

def saturatingMul (a b : ℤ) : ℤ := min (a * b) I64_MAX

structure Joined where
  text : Text
  handed : ℤ
  capacity : Capacity
  deriving DecidableEq

def Joined.new (capacity : Capacity) : Joined := ⟨[], 0, capacity⟩

/-- What `finished` answers; the build that checks its assertion answers it only where
    `finishedHolds`. -/
def Joined.finished (joined : Joined) : Text := joined.text

variable (data : CanonicalData Char)

def InNfc (text : Text) : Prop := data.nfc text = text

/-- `next` joined on, where what has been handed over is still held. -/
def Joined.push (joined : Joined) (next : Text) : Option Joined :=
  let handed := saturatingAdd joined.handed (codePoints next)
  if !joined.capacity.holds handed then none
  else some { joined with text := data.nfc (joined.text ++ next), handed := handed }

/-- One turn of `join`'s loop: the separator before every piece but the first. -/
def joinPiece (separator : Text) (joined : Joined) (piece : Text × ℕ) : Option Joined :=
  if piece.2 > 0 then (joined.push data separator).bind (Joined.push data · piece.1)
  else joined.push data piece.1

/-- The pieces joined with `separator` between each two. -/
def join (separator : Text) (pieces : List Text) (capacity : Capacity) : Option Text :=
  (pieces.zipIdx.foldlM (joinPiece data separator) (Joined.new capacity)).map Joined.finished

def append (left right : Text) (capacity : Capacity) : Option Text :=
  join data [] [left, right] capacity

/-- The pieces between each occurrence of `target`, leftmost first and none overlapping. `skip` is
    how much is left of an occurrence being passed over. -/
def splitFrom (target : Text) : ℕ → Text → Text → List Text
  | _, piece, [] => [piece]
  | skip + 1, piece, _ :: text => splitFrom target skip piece text
  | 0, piece, a :: text =>
    if target.isPrefixOf (a :: text) then piece :: splitFrom target (target.length - 1) [] text
    else splitFrom target 0 (piece ++ [a]) text

def split (target text : Text) : List Text := splitFrom target 0 [] text

/-- Every run of `target` replaced by `replacement`; an empty target replaces nothing. -/
def replace (target replacement text : Text) (capacity : Capacity) : Option Text :=
  if target = [] then some text else join data replacement (split target text) capacity

def reverse (text : Text) (capacity : Capacity) : Option Text :=
  join data [] (text.reverse.map (fun a => [a])) capacity

/-- `repeat`: copies of the text joined, measured before the first is written. -/
def repeated (copies : ℤ) (text : Text) (capacity : Capacity) : Option Text :=
  if copies ≤ 0 ∨ text = [] then some []
  else if !capacity.holds (saturatingMul (codePoints text) copies) then none
  else
    ((List.replicate copies.toNat text).foldlM (Joined.push data) (Joined.new capacity)).map
      Joined.finished

/-- The code points from `start` up to but not including `stop`. -/
def slice (start stop : ℤ) (text : Text) : Option Text :=
  if start < 0 ∨ stop < 0 then none
  else if stop < start then none
  else if codePoints text < stop then none
  else some ((text.drop start.toNat).take (stop - start).toNat)

/-- How many copies of `pad` cover what is needed. -/
def copiesFor (needed : ℤ) (pad : Text) : ℤ := (needed + codePoints pad - 1) / codePoints pad

/-- The copies of `pad` cut to what is needed from their front. -/
def cut (needed : ℤ) (whole : Text) : Text := (slice 0 needed whole).getD whole

def beside (before : Bool) (fill text : Text) : List Text :=
  if before then [fill, text] else [text, fill]

/-- The loop of `widened`, from a turn that asks for `needed`. Counting past an `i64` ends the
    run. -/
def widenedFrom (width : ℤ) (pad text : Text) (before : Bool) (capacity : Capacity) (needed : ℤ) :
    Option Text :=
  if _h : needed + codePoints pad - 1 > I64_MAX then none
  else
    match repeated data (copiesFor needed pad) pad capacity with
    | none => none
    | some whole =>
      match join data [] (beside before (cut needed whole) text) capacity with
      | none => none
      | some joined =>
        if codePoints joined ≥ width then some joined
        else widenedFrom width pad text before capacity (needed + 1)
termination_by (I64_MAX + 2 - needed).toNat
decreasing_by
  have : 0 ≤ codePoints pad := Int.natCast_nonneg _
  omega

/-- The text widened to `width` code points with copies of `pad`, and left alone where it is that
    wide already or `pad` is empty. -/
def widened (width : ℤ) (pad text : Text) (before : Bool) (capacity : Capacity) : Option Text :=
  let long := codePoints text
  if pad = [] ∨ long ≥ width then some text
  else if !capacity.holds width then none
  else widenedFrom data width pad text before capacity (width - long)

def padLeft (width : ℤ) (pad text : Text) (capacity : Capacity) : Option Text :=
  widened data width pad text true capacity

def padRight (width : ℤ) (pad text : Text) (capacity : Capacity) : Option Text :=
  widened data width pad text false capacity

inductive Operation
  | append (left right : Text)
  | join (separator : Text) (pieces : List Text)
  | replace (target replacement text : Text)
  | reverse (text : Text)
  | repeated (copies : ℤ) (text : Text)
  | padLeft (width : ℤ) (pad text : Text)
  | padRight (width : ℤ) (pad text : Text)

def Operation.answer (capacity : Capacity) : Operation → Option Text
  | .append left right => TextOperations.append data left right capacity
  | .join separator pieces => TextOperations.join data separator pieces capacity
  | .replace target replacement text =>
    TextOperations.replace data target replacement text capacity
  | .reverse text => TextOperations.reverse data text capacity
  | .repeated copies text => TextOperations.repeated data copies text capacity
  | .padLeft width pad text => TextOperations.padLeft data width pad text capacity
  | .padRight width pad text => TextOperations.padRight data width pad text capacity

section Runs

def handedOver (runs : List Text) : ℤ := min (codePoints runs.flatten) I64_MAX

def Fits (capacity : Capacity) (runs : List Text) : Prop :=
  runs ≠ [] → capacity.holds (handedOver runs)

/-- The runs taken apart and put together again are at most so many code points: what their own
    letters come to beyond themselves is at most the pairs that compose and the room left. -/
def ComesWithin (most : ℤ) (runs : List Text) : Prop :=
  codePoints runs.flatten + data.takenApart runs.flatten ≤ most + data.putTogether runs.flatten

def Covered (capacity : Capacity) (pad : Text) (needed : ℤ) : Prop :=
  needed + codePoints pad - 1 ≤ I64_MAX ∧
    Fits capacity (List.replicate (copiesFor needed pad).toNat pad)

/-- What a widening hands over where it asks for `needed`. -/
def padRuns (pad text : Text) (before : Bool) (needed : ℤ) : List Text :=
  beside before
    (cut needed (data.nfc (List.replicate (copiesFor needed pad).toNat pad).flatten)) text

/-- The widening comes to ask for `needed`, and stops there: every fill before it is held and comes
    short of the width. -/
def StopsAt (width : ℤ) (pad text : Text) (before : Bool) (capacity : Capacity) (start needed : ℤ) :
    Prop :=
  start ≤ needed ∧ (∀ n, start ≤ n → n ≤ needed → Covered capacity pad n) ∧
    (∀ n, start ≤ n → n < needed → Fits capacity (padRuns data pad text before n) ∧
      ComesWithin data (width - 1) (padRuns data pad text before n)) ∧
    ¬ ComesWithin data (width - 1) (padRuns data pad text before needed)

def PadHands (width : ℤ) (pad text : Text) (before : Bool) (capacity : Capacity)
    (runs : List Text) : Prop :=
  capacity.holds width ∧ ∃ needed,
    StopsAt data width pad text before capacity (width - codePoints text) needed ∧
      runs = padRuns data pad text before needed

def Operation.Hands (capacity : Capacity) (runs : List Text) : Operation → Prop
  | .append left right => runs = [left, right]
  | .join separator pieces => runs = pieces.intersperse separator
  | .replace target replacement text => runs = (split target text).intersperse replacement
  | .reverse text => runs = text.reverse.map (fun a => [a])
  | .repeated copies text => runs = if text = [] then [] else List.replicate copies.toNat text
  | .padLeft width pad text => PadHands data width pad text true capacity runs
  | .padRight width pad text => PadHands data width pad text false capacity runs

def Operation.texts : Operation → List Text
  | .append left right => [left, right]
  | .join separator pieces => separator :: pieces
  | .replace target replacement text => [target, replacement, text]
  | .reverse text => [text]
  | .repeated _ text => [text]
  | .padLeft _ pad text => [pad, text]
  | .padRight _ pad text => [pad, text]

/-- The runs an operation joins; a widening, the text and any fill from the first it asks for. -/
def Operation.Joins (runs : List Text) : Operation → Prop
  | .append left right => runs = [left, right]
  | .join separator pieces => runs = pieces.intersperse separator
  | .replace target replacement text => runs = (split target text).intersperse replacement
  | .reverse text => runs = text.reverse.map (fun a => [a])
  | .repeated copies text => runs = if text = [] then [] else List.replicate copies.toNat text
  | .padLeft width pad text =>
    ∃ needed, width - codePoints text ≤ needed ∧ runs = padRuns data pad text true needed
  | .padRight width pad text =>
    ∃ needed, width - codePoints text ≤ needed ∧ runs = padRuns data pad text false needed

/-- In the runs an operation joins, where they are held, no letter is taken apart by a mark of
    another run. -/
def Operation.Undivided (capacity : Capacity) (op : Operation) : Prop :=
  ∀ runs, op.Joins data runs → Fits capacity runs → data.Undivided runs.flatten

end Runs

section Joining

variable {data}

theorem codePoints_nonneg (text : Text) : 0 ≤ codePoints text := Int.natCast_nonneg _

theorem codePoints_append (a b : Text) : codePoints (a ++ b) = codePoints a + codePoints b := by
  simp [codePoints]

theorem saturatingAdd_min (a : ℤ) {b : ℤ} (hb : 0 ≤ b) :
    saturatingAdd (min a I64_MAX) b = min (a + b) I64_MAX := by
  simp only [saturatingAdd]
  omega

/-- A text joined from the runs that come to `handed`, and what was handed over for it. -/
def joinedOf (capacity : Capacity) (handed : Text) : Joined :=
  ⟨data.nfc handed, min (codePoints handed) I64_MAX, capacity⟩

theorem push_eq_some {capacity : Capacity} {handed next : Text} {joined : Joined} :
    (@joinedOf data capacity handed).push data next = some joined ↔
      capacity.holds (min (codePoints (handed ++ next)) I64_MAX) ∧
        joined = @joinedOf data capacity (handed ++ next) := by
  have hnext := codePoints_nonneg next
  simp only [Joined.push, joinedOf, saturatingAdd_min _ hnext, nfc_nfc_append,
    ← codePoints_append]
  split
  · next h =>
    constructor
    · intro hnone
      cases hnone
    · rintro ⟨hholds, -⟩
      simp [hholds] at h
  · next h =>
    simp only [Option.some.injEq]
    exact ⟨fun hjoined => ⟨by simpa using h, hjoined.symm⟩, fun hjoined => hjoined.2.symm⟩

theorem holds_of_le {capacity : Capacity} {a b : ℤ} (hab : a ≤ b) (hb : capacity.holds b) :
    capacity.holds a := by
  simp only [Capacity.holds, decide_eq_true_eq] at hb ⊢
  omega

theorem push_runs {capacity : Capacity} {joined : Joined} (runs : List Text) (handed : Text) :
    runs.foldlM (Joined.push data) (@joinedOf data capacity handed) = some joined ↔
      (runs ≠ [] → capacity.holds (min (codePoints (handed ++ runs.flatten)) I64_MAX)) ∧
        joined = @joinedOf data capacity (handed ++ runs.flatten) := by
  induction runs generalizing handed with
  | nil =>
    simp only [List.foldlM_nil, Option.pure_def, Option.some.injEq, List.flatten_nil,
      List.append_nil, ne_eq, not_true_eq_false, false_implies, true_and]
    exact eq_comm
  | cons run runs ih =>
    simp only [List.foldlM_cons, Option.bind_eq_bind, Option.bind_eq_some_iff, push_eq_some]
    constructor
    · rintro ⟨-, ⟨hrun, rfl⟩, hruns⟩
      rw [ih] at hruns
      cases runs with
      | nil => simpa [hrun] using hruns.2
      | cons other runs => exact ⟨fun _ => by simpa using hruns.1 (by simp), by simpa using hruns.2⟩
    · rintro ⟨hholds, hjoined⟩
      have hall := hholds (by simp)
      refine ⟨_, ⟨holds_of_le ?_ hall, rfl⟩, (ih _).mpr ⟨fun _ => by simpa using hall, by simpa using hjoined⟩⟩
      have := codePoints_nonneg runs.flatten
      simp only [List.flatten_cons, codePoints_append]
      omega

theorem joinPieces_after (separator : Text) (pieces : List Text) (at' : ℕ) (joined : Joined) :
    (pieces.zipIdx (at' + 1)).foldlM (joinPiece data separator) joined =
      (pieces.flatMap (fun piece => [separator, piece])).foldlM (Joined.push data) joined := by
  induction pieces generalizing at' joined with
  | nil => rfl
  | cons piece pieces ih =>
    simp only [List.zipIdx_cons, List.foldlM_cons, List.flatMap_cons, List.cons_append,
      List.nil_append, joinPiece, Nat.succ_pos, gt_iff_lt, if_true, Option.bind_eq_bind,
      Option.bind_assoc]
    simp only [ih]

theorem joinPieces (separator : Text) (pieces : List Text) (joined : Joined) :
    pieces.zipIdx.foldlM (joinPiece data separator) joined =
      (pieces.intersperse separator).foldlM (Joined.push data) joined := by
  cases pieces with
  | nil => rfl
  | cons piece pieces =>
    have hruns : (piece :: pieces).intersperse separator =
        piece :: pieces.flatMap (fun piece => [separator, piece]) := by
      induction pieces generalizing piece with
      | nil => rfl
      | cons other pieces ih => simp [List.intersperse, ih other]
    rw [hruns]
    simp only [List.zipIdx_cons, List.foldlM_cons, joinPiece, Nat.lt_irrefl, gt_iff_lt, if_false]
    simp only [joinPieces_after]

theorem new_eq (capacity : Capacity) : Joined.new capacity = @joinedOf data capacity [] := by
  have hnfc : data.nfc [] = [] := rfl
  simp [Joined.new, joinedOf, codePoints, I64_MAX, hnfc]

theorem joined_runs (runs : List Text) (capacity : Capacity) (s : Text) :
    (runs.foldlM (Joined.push data) (Joined.new capacity)).map Joined.finished = some s ↔
      Fits capacity runs ∧ s = data.nfc runs.flatten := by
  simp only [@new_eq data, Option.map_eq_some_iff, push_runs, List.nil_append]
  constructor
  · rintro ⟨_, ⟨hfits, rfl⟩, rfl⟩
    exact ⟨hfits, rfl⟩
  · rintro ⟨hfits, rfl⟩
    exact ⟨_, ⟨hfits, rfl⟩, rfl⟩

/-- A join answers where its runs are held, and what they come to normalized. -/
theorem join_eq_some (separator : Text) (pieces : List Text) (capacity : Capacity) (s : Text) :
    join data separator pieces capacity = some s ↔
      Fits capacity (pieces.intersperse separator) ∧
        s = data.nfc (pieces.intersperse separator).flatten := by
  rw [join, joinPieces, joined_runs]

theorem flatten_intersperse_nil (pieces : List Text) :
    (pieces.intersperse []).flatten = pieces.flatten := by
  cases pieces with
  | nil => rfl
  | cons piece pieces =>
    induction pieces generalizing piece with
    | nil => rfl
    | cons other pieces ih => simp [List.intersperse, ih other]

/-- Nothing stands between the pieces of a join without a separator. -/
theorem join_nil_eq_some (pieces : List Text) (capacity : Capacity) (s : Text) :
    join data [] pieces capacity = some s ↔
      Fits capacity pieces ∧ s = data.nfc pieces.flatten := by
  rw [join_eq_some, flatten_intersperse_nil]
  have hnil : pieces.intersperse [] ≠ [] ↔ pieces ≠ [] := by
    cases pieces with
    | nil => simp
    | cons piece pieces => cases pieces <;> simp [List.intersperse]
  simp only [Fits, handedOver, flatten_intersperse_nil, hnil]

end Joining

section Building

variable {data}

end Building

section Seam

def decomposeMarked (a : Char) : List Char :=
  if a = 'ü' then ['u', '\u0308']
  else if a = 'ǖ' then ['u', '\u0308', '\u0304']
  else if a = 'ų' then ['u', '\u0328']
  else [a]

def compositeMarked (first second : Char) : Option Char :=
  if first = 'u' ∧ second = '\u0308' then some 'ü'
  else if first = 'ü' ∧ second = '\u0304' then some 'ǖ'
  else if first = 'u' ∧ second = '\u0328' then some 'ų'
  else none

/-- The canonical data of a `u`, its diaeresis, macron and ogonek, and the letters they compose
    to. -/
def marked : CanonicalData Char where
  decompose := decomposeMarked
  ccc := fun a => if a = '\u0308' ∨ a = '\u0304' then 230 else if a = '\u0328' then 202 else 0
  composite := compositeMarked
  decompose_ne_nil := by
    intro a
    simp only [decomposeMarked]
    split_ifs <;> simp
  decompose_full := by
    intro a d hd
    simp only [decomposeMarked] at hd
    split_ifs at hd with h₁ h₂ h₃
    · simp only [List.mem_cons, List.not_mem_nil, or_false] at hd
      rcases hd with rfl | rfl <;> rfl
    · simp only [List.mem_cons, List.not_mem_nil, or_false] at hd
      rcases hd with rfl | rfl | rfl <;> rfl
    · simp only [List.mem_cons, List.not_mem_nil, or_false] at hd
      rcases hd with rfl | rfl <;> rfl
    · rw [List.mem_singleton.mp hd]
      simp [decomposeMarked, h₁, h₂, h₃]
  decompose_composite := by
    intro first second both h
    simp only [compositeMarked] at h
    split_ifs at h with h₁ h₂ h₃
    · cases h
      rw [h₁.1, h₁.2]
      rfl
    · cases h
      rw [h₂.1, h₂.2]
      rfl
    · cases h
      rw [h₃.1, h₃.2]
      rfl

end Seam

end SoutherNative.TextOperations
