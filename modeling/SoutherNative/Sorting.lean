import SoutherNative.ListLayout
import SoutherNative.MergePasses

set_option autoImplicit false

/-!
# Sorting a list

A list's slots ordered by merging runs of them, the keys and what stands beside them moved in step,
and the greatest or the least of a list found by walking it.
-/
namespace SoutherNative.Sorting
open Rooms ListLayout MergePasses

/-- Two lists of one length, one holding what is being ordered and the other room to merge it
    into. -/
structure Lane where
  source : Pointer
  target : Pointer

def Lane.swap (lane : Lane) : Lane := ⟨lane.target, lane.source⟩

def smin (a b : Word) : Word := if a.slt b then a else b

section

-- How an index is taken to its slot of a list.
variable (element : Pointer → Word → Pointer)

def moveSlots : List Lane → Word → Word → Run Unit
  | [], _, _ => pure ()
  | lane :: rest, place, into => do
    let slot ← load (element lane.source place)
    store (element lane.target into) slot
    moveSlots rest place into

def takesLeft (less : Slot → Slot → Bool) (ordering : Pointer) (middle high left right : Word) :
    Run Bool :=
  if left.slt middle then
    if right.slt high then do
      let onTheLeft ← load (element ordering left)
      let onTheRight ← load (element ordering right)
      return !less onTheRight onTheLeft
    else pure true
  else pure false

def mergeRun (less : Slot → Slot → Bool) (keys : Lane) (beside : List Lane)
    (middle high left right into : Word) : Run Unit :=
  if into.slt high then do
    let fromLeft ← takesLeft element less keys.source middle high left right
    if fromLeft then do
      moveSlots element (keys :: beside) left into
      mergeRun less keys beside middle high (left + 1) right (into + 1)
    else do
      moveSlots element (keys :: beside) right into
      mergeRun less keys beside middle high left (right + 1) (into + 1)
  else pure ()
termination_by (high.toInt - into.toInt).toNat
decreasing_by
  all_goals
    have less : into.toInt < high.toInt := by simpa [BitVec.slt] using ‹into.slt high = true›
    have next := toInt_next less
    omega

/-- A merge for every pair of runs, the second of them shorter or empty at the end. Without end where
    `steps` of them are not enough. -/
def mergeRuns (less : Slot → Slot → Bool) (keys : Lane) (beside : List Lane) (width count : Word) :
    ℕ → Word → Run Unit
  | 0, _ => astray
  | steps + 1, low =>
    if low.slt count then do
      let middle := smin (low + width) count
      let high := smin (middle + width) count
      mergeRun element less keys beside middle high low middle low
      mergeRuns less keys beside width count steps high
    else pure ()

def passes (less : Slot → Slot → Bool) (rounds : ℕ) (count : Word) :
    ℕ → Word → Lane → List Lane → Run (Lane × List Lane)
  | 0, _, _, _ => astray
  | steps + 1, width, keys, beside =>
    if width.slt count then do
      mergeRuns element less keys beside width count rounds 0
      passes less rounds count steps (width + width) keys.swap (beside.map Lane.swap)
    else pure (keys, beside)

/-- The keys of what is ordered, and which of two is strictly before the other. -/
structure SortKeys where
  list : Pointer
  /-- Whether the keys are the values themselves. -/
  byValues : Bool
  less : Slot → Slot → Bool

def merged (steps : ℕ) (keys : SortKeys) (count : Word) (beside : List Lane) :
    Run (Pointer × List Pointer) := do
  let spare ← newList count
  let (ordered, lanes) ← passes element keys.less steps count steps 1 ⟨keys.list, spare⟩ beside
  return (ordered.source, lanes.map Lane.source)

end

/-- What a value is ordered as: whether no value of its type is made, where each stands on its
    enumeration's order where it is of one, and which of two is strictly before the other where its
    order is a primitive's. -/
structure Placing where
  noValue : Bool
  enumeration : Option (Slot → Word)
  below : Slot → Slot → Bool

def placeBelow : Slot → Slot → Bool
  | .word a, .word b => a.slt b
  | _, _ => false

def sortKeys (subject : Placing) (list : Pointer) (count : Word) : Run SortKeys :=
  match subject.enumeration with
  | none => pure ⟨list, true, subject.below⟩
  | some placeOf => do
    let places ← newList count
    each count fun place => do
      let value ← load (elementAt list place)
      store (elementAt places place) (.word (placeOf value))
    return ⟨places, false, placeBelow⟩

def sorted (steps : ℕ) (subject : Placing) (list : Pointer) : Run Pointer :=
  if subject.noValue then pure list
  else do
    let count ← length list
    let values ← copied list count
    let keys ← sortKeys subject values count
    if keys.byValues then do
      let (ordered, _) ← merged elementAt steps keys count []
      return ordered
    else do
      let spare ← newList count
      let (_, beside) ← merged elementAt steps keys count [⟨values, spare⟩]
      match beside with
      | [values] => return values
      | _ => astray

/-- A list in the order of what `key` answers for each element, each worked out once, in order. -/
def sortedBy (steps : ℕ) (neverRuns : Bool) (key : Slot → Run Slot) (subject : Placing)
    (list : Pointer) : Run Pointer :=
  if neverRuns then pure list
  else do
    let count ← length list
    let keys ← newList count
    each count fun place => do
      let element ← load (elementAt list place)
      let answered ← key element
      store (elementAt keys place) answered
    if subject.noValue then return list
    else do
      let values ← copied list count
      let spareValues ← newList count
      let keys ← sortKeys subject keys count
      let (_, beside) ← merged elementAt steps keys count [⟨values, spareValues⟩]
      match beside with
      | [values] => return values
      | _ => astray

inductive Extreme
  | greatest | least
  deriving DecidableEq

def beyond (op : Extreme) (less : Slot → Slot → Bool) (candidate best : Slot) : Bool :=
  match op with
  | .greatest => less best candidate
  | .least => less candidate best

def lookAt (op : Extreme) (keys : SortKeys) (list : Pointer) (place : Word)
    (soFar : Option Pointer × Word) : Run (Option Pointer × Word) := do
  let along := place + 1
  let candidate ← load (elementAt keys.list along)
  let best ← load (elementAt keys.list soFar.2)
  let further := beyond op keys.less candidate best
  return (if further then some (elementAt list along) else soFar.1,
    if further then along else soFar.2)

def extreme (op : Extreme) (subject : Placing) (list : Pointer) : Run (Option Pointer) :=
  if subject.noValue then pure none
  else do
    let count ← length list
    let keys ← sortKeys subject list count
    let first := elementAt list 0
    let start := if count == 0 then none else some first
    let rest := count + -1
    let rest := if rest.slt 0 then 0 else rest
    let chosen ← eachWith rest (lookAt op keys list) (start, 0)
    return chosen.1

/-- Room for a list of `count` elements, its length written and its first elements these. -/
structure Buffer (m : Memory) (count : ℕ) (p : Pointer) (xs : List Slot) : Prop extends
    Roomy m p count where
  length : m.slot p.room 0 = some (.word (BitVec.ofNat 64 count))
  elements : Elements m p xs

lemma Buffer.keeps {apart : ℕ → Prop} {m m' : Memory} {count : ℕ} {p : Pointer} {xs : List Slot}
    (buffer : Buffer m count p xs) (keeps : Keeps apart m m') (kept : ¬apart p.room) :
    Buffer m' count p xs where
  toRoomy := buffer.toRoomy.keeps keeps
  length := by
    rw [keeps.slot _ buffer.taken kept]
    exact buffer.length
  elements := buffer.elements.keeps keeps buffer.taken kept

lemma Buffer.none {m : Memory} {count : ℕ} {p : Pointer} {xs : List Slot}
    (buffer : Buffer m count p xs) : Buffer m count p [] :=
  ⟨buffer.toRoomy, buffer.length, by simp [Elements]⟩

lemma Buffer.put {m : Memory} {count : ℕ} {p : Pointer} {xs : List Slot}
    (buffer : Buffer m count p xs) (held : Slot) :
    Buffer (m.written p.room (xs.length + 1) held) count p (xs ++ [held]) where
  toRoomy := buffer.toRoomy.written _ _ _
  length := by
    rw [Memory.written_other _ _ (Or.inr (by omega))]
    exact buffer.length
  elements := by
    intro i x stands
    by_cases last : i = xs.length
    · subst last
      rw [List.getElem?_append_right le_rfl, Nat.sub_self] at stands
      cases stands
      exact Memory.written_same _ _ _ _
    · rw [Memory.written_other _ _ (Or.inr (by omega))]
      apply buffer.elements
      have inside := (List.getElem?_eq_some_iff.mp stands).1
      rw [List.length_append, List.length_singleton] at inside
      rwa [List.getElem?_append_left (by omega)] at stands

lemma Buffer.isList {m : Memory} {count : ℕ} {p : Pointer} {xs : List Slot}
    (buffer : Buffer m count p xs) (full : xs.length = count) : IsList m p xs := by
  subst full
  exact ⟨buffer.toRoomy, buffer.length, buffer.elements⟩

lemma isList_buffer {m : Memory} {p : Pointer} {xs : List Slot} (list : IsList m p xs) :
    Buffer m xs.length p xs :=
  ⟨list.toRoomy, list.length, list.elements⟩

structure LaneHolds (m : Memory) (count : ℕ) (rows done : List ℕ) (lane : Lane)
    (cell : ℕ → Slot) : Prop where
  source : Buffer m count lane.source (rows.map cell)
  target : Buffer m count lane.target (done.map cell)

def roomsOf : List Lane → List ℕ
  | [] => []
  | lane :: rest => lane.source.room :: lane.target.room :: roomsOf rest

def Targets (lanes : List Lane) (room : ℕ) : Prop := ∃ lane ∈ lanes, lane.target.room = room

structure LanesHold (m : Memory) (count : ℕ) (rows done : List ℕ) (lanes : List Lane)
    (cells : List (ℕ → Slot)) : Prop where
  each : List.Forall₂ (LaneHolds m count rows done) lanes cells
  apart : (roomsOf lanes).Nodup

lemma mem_roomsOf {lanes : List Lane} {lane : Lane} (member : lane ∈ lanes) :
    lane.source.room ∈ roomsOf lanes ∧ lane.target.room ∈ roomsOf lanes := by
  induction lanes with
  | nil => cases member
  | cons first rest ih =>
    rcases List.mem_cons.mp member with rfl | among
    · simp [roomsOf]
    · have there := ih among
      simp [roomsOf, there.1, there.2]

lemma LaneHolds.keeps {apart : ℕ → Prop} {m m' : Memory} {count : ℕ} {rows done : List ℕ}
    {lane : Lane} {cell : ℕ → Slot} (holds : LaneHolds m count rows done lane cell)
    (keeps : Keeps apart m m') (source : ¬apart lane.source.room)
    (target : ¬apart lane.target.room) : LaneHolds m' count rows done lane cell :=
  ⟨holds.source.keeps keeps source, holds.target.keeps keeps target⟩

lemma forall₂_keeps {apart : ℕ → Prop} {m m' : Memory} {count : ℕ} {rows done : List ℕ}
    {lanes : List Lane} {cells : List (ℕ → Slot)}
    (each : List.Forall₂ (LaneHolds m count rows done) lanes cells) (keeps : Keeps apart m m')
    (kept : ∀ room ∈ roomsOf lanes, ¬apart room) :
    List.Forall₂ (LaneHolds m' count rows done) lanes cells := by
  induction each with
  | nil => exact .nil
  | cons first rest ih =>
    refine .cons (first.keeps keeps (kept _ (by simp [roomsOf])) (kept _ (by simp [roomsOf])))
      (ih fun room member => kept room (by simp [roomsOf, member]))

lemma smin_ofNat {a b : ℕ} (ha : a < 2 ^ 63) (hb : b < 2 ^ 63) :
    smin (BitVec.ofNat 64 a) (BitVec.ofNat 64 b) = BitVec.ofNat 64 (min a b) := by
  unfold smin
  rw [slt_ofNat ha hb]
  by_cases below : a < b
  · rw [if_pos (by simpa using below), Nat.min_eq_left below.le]
  · rw [if_neg (by simpa using below), Nat.min_eq_right (Nat.not_lt.mp below)]

section

variable {element : Pointer → Word → Pointer} {count : ℕ}
  (within : ∀ list, ∀ i < count, element list (BitVec.ofNat 64 i) = elementAt list (BitVec.ofNat 64 i))
include within

/-- A slot of every lane moved is one more row done, and only what is merged into is touched. -/
lemma moveSlots_spec {rows done : List ℕ} {place row : ℕ} (stands : rows[place]? = some row)
    (few : rows.length = count) (more : done.length < count) {lanes : List Lane}
    {cells : List (ℕ → Slot)} {m : Memory} (holds : LanesHold m count rows done lanes cells) :
    ∃ m', moveSlots element lanes (BitVec.ofNat 64 place) (BitVec.ofNat 64 done.length) m =
        .answered () m' ∧
      LanesHold m' count rows (done ++ [row]) lanes cells ∧ Keeps (Targets lanes) m m' := by
  obtain ⟨each, apart⟩ := holds
  have inside : place < count := by
    rw [← few]
    exact (List.getElem?_eq_some_iff.mp stands).1
  induction lanes generalizing cells m with
  | nil =>
    cases each
    exact ⟨m, rfl, ⟨.nil, apart⟩, .refl _ m⟩
  | cons lane lanes ih =>
    rcases each with _ | @⟨_, cell, _, cells, first, rest⟩
    obtain ⟨sourceApart, others⟩ := List.nodup_cons.mp apart
    obtain ⟨targetApart, restApart⟩ := List.nodup_cons.mp others
    have read := first.source.toRoomy.load_element inside
      (first.source.elements place (cell row) (by rw [List.getElem?_map, stands]; rfl))
    have put := first.target.toRoomy.store_element more (cell row)
    have keptFirst : Keeps (Targets (lane :: lanes)) m
        (m.written lane.target.room (done.length + 1) (cell row)) :=
      .written ⟨lane, by simp, rfl⟩ _ _
    have keptApart : Keeps (Eq lane.target.room) m
        (m.written lane.target.room (done.length + 1) (cell row)) := .written rfl _ _
    obtain ⟨m', ran, holds', kept⟩ := ih
      (forall₂_keeps rest keptApart fun room member same => targetApart (same ▸ member)) restApart
    have keptRest : Keeps (Targets (lane :: lanes)) _ m' :=
      kept.mono fun room _ ⟨other, member, same⟩ => ⟨other, List.mem_cons_of_mem _ member, same⟩
    refine ⟨m', ?_, ⟨.cons ⟨?_, ?_⟩ holds'.each, apart⟩, keptFirst.trans keptRest⟩
    · unfold moveSlots
      rw [within _ _ inside, within _ _ more, Run.bind_answered read, Run.bind_answered put]
      exact ran
    · apply (first.source.keeps keptApart fun same => ?_).keeps kept
      · rintro ⟨other, member, same⟩
        exact sourceApart (List.mem_cons_of_mem _ (same ▸ (mem_roomsOf member).2))
      · exact sourceApart (by simp [same])
    · have done' := first.target.put (cell row)
      rw [List.length_map] at done'
      rw [List.map_append]
      apply done'.keeps kept
      rintro ⟨other, member, same⟩
      exact targetApart (same ▸ (mem_roomsOf member).2)

omit within in
lemma prefix_head {rows xs : List ℕ} {place x : ℕ} (run : x :: xs <+: rows.drop place) :
    rows[place]? = some x ∧ xs <+: rows.drop (place + 1) := by
  obtain ⟨after, whole⟩ := run
  constructor
  · rw [← Nat.add_zero place, ← List.getElem?_drop, ← whole]
    rfl
  · rw [← List.drop_drop, ← whole]
    exact ⟨after, rfl⟩

lemma takesLeft_spec (less : Slot → Slot → Bool) (short : count ≤ longest) {m : Memory}
    {list : Pointer} {rows leftRun rightRun : List ℕ} {cell : ℕ → Slot}
    (holds : Buffer m count list (rows.map cell)) {left right : ℕ}
    (leftRows : leftRun <+: rows.drop left) (rightRows : rightRun <+: rows.drop right)
    (leftInside : left + leftRun.length ≤ count) (rightInside : right + rightRun.length ≤ count) :
    takesLeft element less list (BitVec.ofNat 64 (left + leftRun.length))
        (BitVec.ofNat 64 (right + rightRun.length)) (BitVec.ofNat 64 left)
        (BitVec.ofNat 64 right) m =
      .answered (leftFirst (fun i j => less (cell i) (cell j)) leftRun rightRun) m := by
  unfold longest at short
  unfold takesLeft
  rw [slt_ofNat (by omega) (by omega), slt_ofNat (by omega) (by omega)]
  cases leftRun with
  | nil => simp [Run.pure_apply, leftFirst]
  | cons x xs =>
    rw [if_pos (by simp)]
    cases rightRun with
    | nil => simp [Run.pure_apply, leftFirst]
    | cons y ys =>
      rw [if_pos (by simp)]
      simp only [List.length_cons] at leftInside rightInside
      have leftThere := holds.toRoomy.load_element (i := left) (by omega)
        (holds.elements left (cell x) (by rw [List.getElem?_map, (prefix_head leftRows).1]; rfl))
      have rightThere := holds.toRoomy.load_element (i := right) (by omega)
        (holds.elements right (cell y) (by rw [List.getElem?_map, (prefix_head rightRows).1]; rfl))
      rw [within _ left (by omega), within _ right (by omega), Run.bind_answered leftThere,
        Run.bind_answered rightThere]
      rfl

/-- What is left of two runs merged is done after what was, by what the keys' lane holds. -/
lemma mergeRun_spec (less : Slot → Slot → Bool) (short : count ≤ longest) {rows : List ℕ}
    (few : rows.length = count) {keys : Lane} {beside : List Lane} {keyCell : ℕ → Slot}
    {cells : List (ℕ → Slot)} (size : ℕ) :
    ∀ (leftRun rightRun done : List ℕ) (left : ℕ) (m : Memory),
      leftRun.length + rightRun.length = size →
      LanesHold m count rows done (keys :: beside) (keyCell :: cells) →
      leftRun <+: rows.drop left → rightRun <+: rows.drop (done.length + leftRun.length) →
      left + leftRun.length ≤ count → done.length + leftRun.length + rightRun.length ≤ count →
      ∃ m', mergeRun element less keys beside (BitVec.ofNat 64 (left + leftRun.length))
          (BitVec.ofNat 64 (done.length + leftRun.length + rightRun.length)) (BitVec.ofNat 64 left)
          (BitVec.ofNat 64 (done.length + leftRun.length)) (BitVec.ofNat 64 done.length) m =
          .answered () m' ∧
        LanesHold m' count rows
          (done ++ merge (fun i j => less (keyCell i) (keyCell j)) leftRun rightRun)
          (keys :: beside) (keyCell :: cells) ∧
        Keeps (Targets (keys :: beside)) m m' := by
  have roomy : count < 2 ^ 63 := by
    unfold longest at short
    omega
  induction size with
  | zero =>
    intro leftRun rightRun done left m ended holds _ _ _ _
    have noLeft : leftRun = [] := List.length_eq_zero_iff.mp (by omega)
    have noRight : rightRun = [] := List.length_eq_zero_iff.mp (by omega)
    subst noLeft noRight
    refine ⟨m, ?_, by simpa [merge] using holds, .refl _ m⟩
    rw [mergeRun, if_neg (by simp [BitVec.slt])]
    rfl
  | succ size ih =>
    intro leftRun rightRun done left m sized holds leftRows rightRows leftInside rightInside
    have lane := List.forall₂_cons.mp holds.each
    have side := takesLeft_spec within less short lane.1.source leftRows rightRows leftInside
      rightInside
    have more : ((BitVec.ofNat 64 done.length).slt
        (BitVec.ofNat 64 (done.length + leftRun.length + rightRun.length))) = true := by
      rw [slt_ofNat (by omega) (by omega)]
      simp only [decide_eq_true_eq]
      omega
    have longer (row : ℕ) : (done ++ [row]).length = done.length + 1 := by simp
    have moved : ∀ (row place : ℕ), rows[place]? = some row → ∃ m',
        moveSlots element (keys :: beside) (BitVec.ofNat 64 place) (BitVec.ofNat 64 done.length) m =
          .answered () m' ∧
        LanesHold m' count rows (done ++ [row]) (keys :: beside) (keyCell :: cells) ∧
        Keeps (Targets (keys :: beside)) m m' := fun row place stands =>
      moveSlots_spec within stands few (by omega) holds
    have next (n : ℕ) : BitVec.ofNat 64 n + 1 = BitVec.ofNat 64 (n + 1) :=
      (BitVec.ofNat_add n 1).symm
    rw [mergeRun, if_pos more, Run.bind_answered side]
    by_cases fromLeft :
        leftFirst (fun i j => less (keyCell i) (keyCell j)) leftRun rightRun = true
    · obtain ⟨x, xs, rfl, first⟩ := merge_leftFirst fromLeft
      simp only [List.length_cons] at sized leftInside rightInside rightRows ⊢
      have head := prefix_head leftRows
      obtain ⟨m₁, ran, holds₁, kept₁⟩ := moved x left head.1
      have rest := ih xs rightRun (done ++ [x]) (left + 1) m₁ (by omega) holds₁ head.2
        (by rw [longer, Nat.add_assoc, Nat.add_comm 1]; exact rightRows) (by omega)
        (by rw [longer]; omega)
      obtain ⟨m₂, ran₂, holds₂, kept₂⟩ := rest
      refine ⟨m₂, ?_, ?_, kept₁.trans kept₂⟩
      · rw [if_pos fromLeft, Run.bind_answered ran, next, next]
        rw [longer, show left + 1 + xs.length = left + (xs.length + 1) by omega,
          show done.length + 1 + xs.length = done.length + (xs.length + 1) by omega] at ran₂
        exact ran₂
      · rw [first, List.append_cons]
        exact holds₂
    · obtain ⟨y, ys, rfl, first⟩ := merge_rightFirst (Bool.eq_false_iff.mpr fromLeft) (by omega)
      simp only [List.length_cons] at sized rightInside ⊢
      have head := prefix_head rightRows
      obtain ⟨m₁, ran, holds₁, kept₁⟩ := moved y _ head.1
      have rest := ih leftRun ys (done ++ [y]) left m₁ (by omega) holds₁ leftRows
        (by rw [longer, Nat.add_right_comm]; exact head.2) leftInside (by rw [longer]; omega)
      obtain ⟨m₂, ran₂, holds₂, kept₂⟩ := rest
      refine ⟨m₂, ?_, ?_, kept₁.trans kept₂⟩
      · rw [if_neg fromLeft, Run.bind_answered ran, next, next]
        rw [longer, show done.length + 1 + leftRun.length + ys.length =
            done.length + leftRun.length + (ys.length + 1) by omega,
          show done.length + 1 + leftRun.length = done.length + leftRun.length + 1 by omega] at ran₂
        exact ran₂
      · rw [first, List.append_cons]
        exact holds₂

lemma mergeRuns_spec (less : Slot → Slot → Bool) (short : count ≤ longest) {rows : List ℕ}
    (few : rows.length = count) {keys : Lane} {beside : List Lane} {keyCell : ℕ → Slot}
    {cells : List (ℕ → Slot)} {width : ℕ} (wide : 0 < width) (narrow : width < count)
    (steps : ℕ) :
    ∀ (done : List ℕ) (m : Memory), LanesHold m count rows done (keys :: beside) (keyCell :: cells) →
      done.length ≤ count → count - done.length < steps →
      ∃ m', mergeRuns element less keys beside (BitVec.ofNat 64 width) (BitVec.ofNat 64 count) steps
          (BitVec.ofNat 64 done.length) m = .answered () m' ∧
        LanesHold m' count rows
          (done ++ MergePasses.pass (fun i j => less (keyCell i) (keyCell j)) width (rows.drop done.length))
          (keys :: beside) (keyCell :: cells) ∧
        Keeps (Targets (keys :: beside)) m m' := by
  have roomy : count ≤ 2 ^ 59 := short
  induction steps with
  | zero =>
    intro done m holds inside enough
    omega
  | succ steps ih =>
    intro done m holds inside enough
    unfold mergeRuns
    rw [slt_ofNat (by omega) (by omega)]
    by_cases more : done.length < count
    · have long : (rows.drop done.length).length = count - done.length := by
        rw [List.length_drop, few]
      let leftRun := (rows.drop done.length).take width
      let rightRun := ((rows.drop done.length).drop width).take width
      have leftLong : leftRun.length = min width (count - done.length) := by
        rw [List.length_take, long]
      have rightLong : rightRun.length = min width (count - done.length - width) := by
        rw [List.length_take, List.length_drop, long]
      have middle : smin (BitVec.ofNat 64 done.length + BitVec.ofNat 64 width)
          (BitVec.ofNat 64 count) = BitVec.ofNat 64 (done.length + leftRun.length) := by
        rw [← BitVec.ofNat_add, smin_ofNat (by omega) (by omega)]
        congr 1
        omega
      have high : smin (BitVec.ofNat 64 (done.length + leftRun.length) + BitVec.ofNat 64 width)
          (BitVec.ofNat 64 count) =
          BitVec.ofNat 64 (done.length + leftRun.length + rightRun.length) := by
        rw [← BitVec.ofNat_add, smin_ofNat (by omega) (by omega)]
        congr 1
        omega
      -- Where the left run is short of its width it ends the list, and the right one is empty.
      have rightRows : rightRun <+: rows.drop (done.length + leftRun.length) := by
        by_cases full : leftRun.length = width
        · rw [full, ← List.drop_drop]
          exact List.take_prefix _ _
        · have none : rightRun = [] := List.length_eq_zero_iff.mp (by omega)
          rw [none]
          exact List.nil_prefix
      obtain ⟨m₁, ran, holds₁, kept₁⟩ := mergeRun_spec within less short few _ leftRun rightRun
        done done.length m rfl holds (List.take_prefix _ _) rightRows (by omega) (by omega)
      have merged : (done ++ merge (fun i j => less (keyCell i) (keyCell j)) leftRun
          rightRun).length = done.length + leftRun.length + rightRun.length := by
        rw [List.length_append, (merge_perm _ _).length_eq, List.length_append, Nat.add_assoc]
      obtain ⟨m₂, ran₂, holds₂, kept₂⟩ := ih _ m₁ holds₁ (by omega) (by omega)
      refine ⟨m₂, ?_, ?_, kept₁.trans kept₂⟩
      · rw [if_pos (by simpa using more), middle, high, Run.bind_answered ran, ← merged]
        exact ran₂
      · have rest : rows.drop (done.length + leftRun.length + rightRun.length) =
            (rows.drop done.length).drop (2 * width) := by
          rw [List.drop_drop]
          by_cases full : rightRun.length = width
          · congr 1
            omega
          · rw [List.drop_eq_nil_of_le (by omega), List.drop_eq_nil_of_le (by omega)]
        have some : ¬(rows.drop done.length = [] ∨ width = 0) := by
          rw [← List.length_eq_zero_iff, long]
          omega
        rw [merged, rest, List.append_assoc] at holds₂
        rw [MergePasses.pass, if_neg some]
        exact holds₂
    · have ended : rows.drop done.length = [] := List.drop_eq_nil_of_le (by omega)
      refine ⟨m, ?_, ?_, .refl _ m⟩
      · rw [if_neg (by simpa using more)]
        rfl
      · rw [ended, MergePasses.pass, if_pos (Or.inl rfl), List.append_nil]
        exact holds

omit within in
lemma roomsOf_swap (lanes : List Lane) :
    (roomsOf (lanes.map Lane.swap)).Perm (roomsOf lanes) := by
  induction lanes with
  | nil => exact .refl _
  | cons lane lanes ih => exact (List.Perm.swap _ _ _).trans ((ih.cons _).cons _)

omit within in
/-- What was merged into, swapped, holds the rows merged, and what was merged from is room. -/
lemma LanesHold.swap {m : Memory} {rows done : List ℕ} {lanes : List Lane}
    {cells : List (ℕ → Slot)} (holds : LanesHold m count rows done lanes cells) :
    LanesHold m count done [] (lanes.map Lane.swap) cells := by
  obtain ⟨each, apart⟩ := holds
  constructor
  · rw [List.forall₂_map_left_iff]
    exact each.imp fun lane cell holds => ⟨holds.target, holds.source.none⟩
  · exact (roomsOf_swap lanes).nodup_iff.mpr apart

/-- Passes leave every lane in the order of the rows they are passes over, in one of its lists. -/
lemma passes_spec (less : Slot → Slot → Bool) (short : count ≤ longest) {rounds : ℕ}
    (many : count < rounds) {keyCell : ℕ → Slot} {cells : List (ℕ → Slot)} (steps : ℕ) :
    ∀ (width : ℕ) (rows : List ℕ) (keys : Lane) (beside : List Lane) (m : Memory),
      rows.length = count → 0 < width → 0 < steps → count < width + steps → width < 2 ^ 62 →
      LanesHold m count rows [] (keys :: beside) (keyCell :: cells) →
      ∃ keys' beside' m', passes element less rounds (BitVec.ofNat 64 count) steps
          (BitVec.ofNat 64 width) keys beside m = .answered (keys', beside') m' ∧
        LanesHold m' count
          (MergePasses.passes (fun i j => less (keyCell i) (keyCell j)) steps width rows) []
          (keys' :: beside') (keyCell :: cells) ∧
        (∀ room, room ∈ roomsOf (keys' :: beside') ↔ room ∈ roomsOf (keys :: beside)) ∧
        Keeps (· ∈ roomsOf (keys :: beside)) m m' := by
  have roomy : count ≤ 2 ^ 59 := short
  induction steps with
  | zero =>
    intro width rows keys beside m few wide some enough narrow holds
    omega
  | succ steps ih =>
    intro width rows keys beside m few wide some enough narrow holds
    unfold passes MergePasses.passes
    rw [slt_ofNat (by omega) (by omega), few]
    by_cases more : width < count
    · obtain ⟨m₁, ran, holds₁, kept₁⟩ := mergeRuns_spec within less short few wide more rounds [] m
        holds (by simp) (by simpa using many)
      rw [List.length_nil, List.drop_zero, List.nil_append] at holds₁
      have perm := @pass_perm (fun i j => less (keyCell i) (keyCell j)) _ wide rows.length rows le_rfl
      obtain ⟨keys', beside', m₂, ran₂, holds₂, rooms, kept₂⟩ := ih (2 * width) _ keys.swap
        (beside.map Lane.swap) m₁ (perm.length_eq.trans few) (by omega) (by omega) (by omega)
        (by omega) holds₁.swap
      rw [show BitVec.ofNat 64 ([] : List ℕ).length = 0 from rfl] at ran
      have swapped (room : ℕ) := (roomsOf_swap (keys :: beside)).mem_iff (a := room)
      refine ⟨keys', beside', m₂, ?_, ?_, fun room => (rooms room).trans (swapped room), ?_⟩
      · rw [if_pos (by simpa using more), Run.bind_answered ran, ← BitVec.ofNat_add, ← two_mul]
        exact ran₂
      · rw [if_pos more]
        exact holds₂
      · refine (kept₁.mono ?_).trans (kept₂.mono fun room _ => (swapped room).mp)
        rintro room - ⟨lane, member, rfl⟩
        exact (mem_roomsOf member).2
    · refine ⟨keys, beside, m, ?_, ?_, fun room => Iff.rfl, .refl _ m⟩
      · rw [if_neg (by simpa using more)]
        rfl
      · rw [if_neg more]
        exact holds

end

/-- Which of two is strictly before the other, of slots any two of which compare. -/
structure TotalPreorder (less : Slot → Slot → Bool) (slots : List Slot) : Prop where
  asymm : ∀ a ∈ slots, ∀ b ∈ slots, less a b = true → less b a = false
  trans : ∀ a ∈ slots, ∀ b ∈ slots, ∀ c ∈ slots,
    less b a = false → less c b = false → less c a = false

def slotOf (slots : List Slot) (row : ℕ) : Slot := slots.getD row (slots.headD (.word 0))

def rowLess (less : Slot → Slot → Bool) (keys : List Slot) (a b : ℕ) : Bool :=
  less (slotOf keys a) (slotOf keys b)

/-- Every row once, ascending by the keys, and those of equal keys in the order they came in. -/
structure Stable (less : Slot → Slot → Bool) (keys : List Slot) (rows : List ℕ) : Prop where
  every : rows.Perm (List.range keys.length)
  ascending : rows.Pairwise (Before (rowLess less keys))

lemma slotOf_eq {slots : List Slot} {row : ℕ} (inside : row < slots.length) :
    slots[row]? = some (slotOf slots row) := by
  simp [slotOf, List.getElem?_eq_getElem inside]

lemma map_slotOf {slots : List Slot} {count : ℕ} (full : slots.length = count) :
    (List.range count).map (slotOf slots) = slots := by
  subst full
  apply List.ext_getElem?
  intro row
  by_cases inside : row < slots.length
  · rw [List.getElem?_map, List.getElem?_range inside, slotOf_eq inside]
    rfl
  · rw [List.getElem?_eq_none (by simpa using inside), List.getElem?_eq_none (by simpa using inside)]

lemma slotOf_mem {slots : List Slot} (some : slots ≠ []) (row : ℕ) : slotOf slots row ∈ slots := by
  by_cases inside : row < slots.length
  · exact List.mem_of_getElem? (slotOf_eq inside)
  · obtain ⟨first, rest, rfl⟩ := List.exists_cons_of_ne_nil some
    simp [slotOf, List.getElem?_eq_none (Nat.not_lt.mp inside)]

lemma TotalPreorder.weak {less : Slot → Slot → Bool} {keys : List Slot}
    (total : TotalPreorder less keys) (some : keys ≠ []) : Weak (rowLess less keys) where
  asymm a b := total.asymm _ (slotOf_mem some a) _ (slotOf_mem some b)
  trans a b c := total.trans _ (slotOf_mem some a) _ (slotOf_mem some b) _ (slotOf_mem some c)

lemma TotalPreorder.stable {less : Slot → Slot → Bool} {keys : List Slot}
    (total : TotalPreorder less keys) {steps : ℕ} (enough : keys.length < steps) :
    Stable less keys (MergePasses.passes (rowLess less keys) steps 1 (List.range keys.length)) := by
  by_cases some : keys = []
  · subst some
    obtain ⟨steps, rfl⟩ := Nat.exists_eq_succ_of_ne_zero (by omega : steps ≠ 0)
    constructor <;> simp [MergePasses.passes]
  · have runs : Runs (rowLess less keys) 1 0 (List.range keys.length) := by
      rw [List.range_eq_range']
      exact runs_one keys.length 0
    have ordered := @passes_ordered _ (total.weak some) steps 1 (by omega) _ runs
      (by rw [List.length_range]; omega)
    exact ⟨ordered.2, ordered.1⟩

/-- A lane before a sort: its source is a list, and its target room for one as long. -/
structure Ready (m : Memory) (count : ℕ) (lane : Lane) (slots : List Slot) : Prop where
  long : slots.length = count
  source : IsList m lane.source slots
  target : Buffer m count lane.target []

lemma Ready.laneHolds {m : Memory} {count : ℕ} {lane : Lane} {slots : List Slot}
    (ready : Ready m count lane slots) :
    LaneHolds m count (List.range count) [] lane (slotOf slots) := by
  obtain ⟨rfl, source, target⟩ := ready
  refine ⟨?_, target⟩
  rw [map_slotOf rfl]
  exact isList_buffer source

lemma forall₂_laneHolds {m : Memory} {count : ℕ} {lanes : List Lane} {contents : List (List Slot)}
    (ready : List.Forall₂ (Ready m count) lanes contents) :
    List.Forall₂ (LaneHolds m count (List.range count) []) lanes (contents.map slotOf) := by
  rw [List.forall₂_map_right_iff]
  exact ready.imp fun _ _ => Ready.laneHolds

lemma roomsOf_taken {m : Memory} {count : ℕ} {rows done : List ℕ} {lanes : List Lane}
    {cells : List (ℕ → Slot)} (each : List.Forall₂ (LaneHolds m count rows done) lanes cells) :
    ∀ room ∈ roomsOf lanes, room < m.taken := by
  induction each with
  | nil => simp [roomsOf]
  | cons first rest ih =>
    intro room member
    rcases List.mem_cons.mp member with rfl | others
    · exact first.source.taken
    · rcases List.mem_cons.mp others with rfl | among
      · exact first.target.taken
      · exact ih room among

/-- A sort of keys and lanes beside them leaves each in the one stable order of the keys. -/
lemma merged_spec {element : Pointer → Word → Pointer} {steps : ℕ} {keys : SortKeys}
    {keySlots : List Slot}
    (within : ∀ list, ∀ i < keySlots.length,
      element list (BitVec.ofNat 64 i) = elementAt list (BitVec.ofNat 64 i))
    (enough : keySlots.length < steps) (total : TotalPreorder keys.less keySlots) {m : Memory}
    (holds : IsList m keys.list keySlots) {beside : List Lane} {contents : List (List Slot)}
    (ready : List.Forall₂ (Ready m keySlots.length) beside contents)
    (apart : (keys.list.room :: roomsOf beside).Nodup) :
    ∃ rows p ps m', merged element steps keys (BitVec.ofNat 64 keySlots.length) beside m =
        .answered (p, ps) m' ∧
      Stable keys.less keySlots rows ∧ IsList m' p (rows.map (slotOf keySlots)) ∧
      List.Forall₂ (fun p slots => IsList m' p (rows.map (slotOf slots))) ps contents ∧
      Keeps (· ∈ keys.list.room :: roomsOf beside) m m' := by
  have lanes := forall₂_laneHolds ready
  obtain ⟨m₁, made, roomy, -, spareLength, kept₁⟩ := newList_spec holds.short m
  have old := kept₁ fun _ => False
  have spareApart : m.taken ∉ keys.list.room :: roomsOf beside := by
    intro member
    rcases List.mem_cons.mp member with same | among
    · have := holds.taken
      omega
    · have := roomsOf_taken lanes m.taken among
      omega
  have start : LanesHold m₁ keySlots.length (List.range keySlots.length) []
      (⟨keys.list, ⟨m.taken, 0⟩⟩ :: beside) (slotOf keySlots :: contents.map slotOf) := by
    constructor
    · refine .cons ⟨?_, roomy, spareLength, by simp [Elements]⟩
        (forall₂_keeps lanes old fun _ _ => id)
      rw [map_slotOf rfl]
      exact (isList_buffer holds).keeps old id
    · exact (List.Perm.swap _ _ _).nodup_iff.mp (List.nodup_cons.mpr ⟨spareApart, apart⟩)
  obtain ⟨keys', beside', m₂, ran, left, -, kept₂⟩ := passes_spec within keys.less holds.short
    enough steps 1 _ _ _ m₁ (by simp) (by omega) (by omega) (by omega) (by omega) start
  have stable := total.stable enough
  have full : ∀ slots : List Slot, ((MergePasses.passes (rowLess keys.less keySlots) steps 1
      (List.range keySlots.length)).map (slotOf slots)).length = keySlots.length := by
    intro slots
    rw [List.length_map, stable.every.length_eq, List.length_range]
  obtain ⟨first, others⟩ := List.forall₂_cons.mp left.each
  refine ⟨_, keys'.source, beside'.map Lane.source, m₂, ?_, stable,
    first.source.isList (full _), ?_, ?_⟩
  · unfold merged
    rw [Run.bind_answered made]
    exact Run.bind_answered ran
  · rw [List.forall₂_map_left_iff]
    rw [List.forall₂_map_right_iff] at others
    exact others.imp fun lane slots holds => holds.source.isList (full slots)
  · refine (kept₁ _).andThen (fun room inside member => ?_) kept₂
    rcases List.mem_cons.mp member with rfl | others
    · simp
    · rcases List.mem_cons.mp others with rfl | among
      · exact absurd inside (lt_irrefl _)
      · exact List.mem_cons_of_mem _ among

lemma newList_buffer {count : ℕ} (short : count ≤ longest) (m : Memory) :
    ∃ m', newList (BitVec.ofNat 64 count) m = .answered ⟨m.taken, 0⟩ m' ∧
      Buffer m' count ⟨m.taken, 0⟩ [] ∧ Keeps (fun _ => False) m m' := by
  obtain ⟨m', made, roomy, -, length, kept⟩ := newList_spec short m
  exact ⟨m', made, ⟨roomy, length, by simp [Elements]⟩, kept _⟩

lemma fill_rule {count : ℕ} {m : Memory} {p : Pointer} (empty : Buffer m count p [])
    (body : Word → Run Unit) (value : ℕ → Slot)
    (step : ∀ i < count, ∀ m', Keeps (Eq p.room) m m' → ∃ m'',
      body (BitVec.ofNat 64 i) m' = store (elementAt p (BitVec.ofNat 64 i)) (value i) m'' ∧
        Keeps (fun _ => False) m' m'') :
    ∃ m', each (BitVec.ofNat 64 count) body m = .answered () m' ∧
      Buffer m' count p ((List.range count).map value) ∧ Keeps (Eq p.room) m m' := by
  have short : count ≤ 2 ^ 59 := empty.short
  have loop := each_rule (n := count) (by omega) body
    (fun done m' => Buffer m' count p ((List.range done).map value) ∧ Keeps (Eq p.room) m m')
    ?_ (m := m) ⟨empty, .refl _ m⟩
  · obtain ⟨m', ran, filled, kept⟩ := loop
    exact ⟨m', ran, filled, kept⟩
  · rintro i inside m' ⟨filled, kept⟩
    obtain ⟨m'', ran, aside⟩ := step i inside m' kept
    have filled' := filled.keeps aside id
    have put := filled'.toRoomy.store_element inside (value i)
    have more := filled'.put (value i)
    rw [List.length_map, List.length_range] at more
    refine ⟨_, ran.trans put, ?_, ?_⟩
    · rw [List.range_succ, List.map_append]
      exact more
    · exact (kept.trans (aside.mono fun _ _ => False.elim)).trans (.written rfl _ _)

lemma copied_spec {m : Memory} {list : Pointer} {xs : List Slot} (holds : IsList m list xs) :
    ∃ m', copied list (BitVec.ofNat 64 xs.length) m = .answered ⟨m.taken, 0⟩ m' ∧
      IsList m' ⟨m.taken, 0⟩ xs ∧ Keeps (fun _ => False) m m' := by
  obtain ⟨m₁, made, empty, kept⟩ := newList_buffer holds.short m
  have source := holds.keeps kept id
  have inside := holds.taken
  have front (p : Pointer) : p.along (listAt 0) = elementAt p (BitVec.ofNat 64 0) := by
    simp [elementAt, Pointer.along]
  obtain ⟨m₂, ran, taken, size, moved, others⟩ := copySlots_spec 0 0 xs.length
    (by simpa using source.toRoomy) (by simpa using empty.toRoomy) (by simp; omega) (by
      intro i before
      rw [Nat.zero_add]
      exact ⟨_, source.elements i _ (List.getElem?_eq_getElem before)⟩)
  have touched : Keeps (Eq m.taken) m₁ m₂ := by
    refine ⟨taken.ge, fun r _ => by rw [size], fun r _ other i => others r i (Or.inl ?_)⟩
    exact fun same => other same.symm
  refine ⟨m₂, ?_, ⟨empty.toRoomy.keeps touched, ?_, ?_⟩, kept.andThen ?_ touched⟩
  · unfold copied
    rw [Run.bind_answered made]
    simp only [front]
    exact Run.bind_answered ran
  · rw [others _ _ (Or.inr (Or.inl le_rfl))]
    exact empty.length
  · intro i x stands
    have before := (List.getElem?_eq_some_iff.mp stands).1
    have there := moved i before
    rw [Nat.zero_add] at there
    rw [there]
    exact source.elements i x stands
  · intro room before same
    omega

def keyOf (subject : Placing) : Slot → Slot :=
  match subject.enumeration with
  | none => id
  | some placeOf => fun value => .word (placeOf value)

def keyLess (subject : Placing) : Slot → Slot → Bool :=
  match subject.enumeration with
  | none => subject.below
  | some _ => placeBelow

def Ordered (subject : Placing) (values : List Slot) : Prop :=
  subject.enumeration = none → TotalPreorder subject.below values

lemma Ordered.keys {subject : Placing} {values : List Slot} (ordered : Ordered subject values) :
    TotalPreorder (keyLess subject) (values.map (keyOf subject)) := by
  unfold keyLess keyOf
  cases places : subject.enumeration with
  | none =>
    rw [List.map_id]
    exact ordered places
  | some placeOf =>
    constructor
    · simp only [List.mem_map]
      rintro _ ⟨a, -, rfl⟩ _ ⟨b, -, rfl⟩ below
      simp only [placeBelow, BitVec.slt, decide_eq_true_eq, decide_eq_false_iff_not] at below ⊢
      omega
    · simp only [List.mem_map]
      rintro _ ⟨a, -, rfl⟩ _ ⟨b, -, rfl⟩ _ ⟨c, -, rfl⟩ first second
      simp only [placeBelow, BitVec.slt, decide_eq_false_iff_not] at first second ⊢
      omega

lemma sortKeys_spec (subject : Placing) {m : Memory} {list : Pointer} {xs : List Slot}
    (holds : IsList m list xs) :
    ∃ keys m', sortKeys subject list (BitVec.ofNat 64 xs.length) m = .answered keys m' ∧
      IsList m' keys.list (xs.map (keyOf subject)) ∧ keys.less = keyLess subject ∧
      Keeps (fun _ => False) m m' ∧
      if keys.byValues then keys.list = list ∧ keyOf subject = id else m.taken ≤ keys.list.room := by
  unfold sortKeys keyLess keyOf
  cases places : subject.enumeration with
  | none => exact ⟨_, m, rfl, by simpa using holds, rfl, .refl _ m, rfl, rfl⟩
  | some placeOf =>
    obtain ⟨m₁, made, empty, kept⟩ := newList_buffer holds.short m
    have inside := holds.taken
    have source := holds.keeps kept id
    obtain ⟨m₂, ran, filled, touched⟩ := fill_rule empty
      (fun place => do
        let value ← load (elementAt list place)
        store (elementAt ⟨m.taken, 0⟩ place) (.word (placeOf value)))
      (fun i => .word (placeOf (slotOf xs i))) (by
        intro i before m' keeps
        have here := source.keeps keeps (by simp; omega)
        exact ⟨m', Run.bind_answered (here.toRoomy.load_element before
          (here.elements i _ (slotOf_eq before))), .refl _ m'⟩)
    have whole : (List.range xs.length).map (fun i => Slot.word (placeOf (slotOf xs i))) =
        xs.map fun value => .word (placeOf value) := by
      conv_rhs => rw [← @map_slotOf xs _ rfl, List.map_map]
      rfl
    refine ⟨⟨⟨m.taken, 0⟩, false, placeBelow⟩, m₂, ?_, ?_, rfl,
      kept.andThen (fun room before same => ?_) touched, ?_⟩
    · dsimp only
      rw [Run.bind_answered made, Run.bind_answered ran]
      rfl
    · rw [whole] at filled
      exact filled.isList (by simp)
    · have here : m.taken = room := same
      omega
    · exact le_rfl

/-- Values sorted beside their keys, in lists that are all new, are left in the keys' order. -/
lemma merged_beside {m₀ m : Memory} {steps : ℕ} {keys : SortKeys} {keySlots xs : List Slot}
    {values spare : Pointer} (enough : xs.length < steps) (long : keySlots.length = xs.length)
    (total : TotalPreorder keys.less keySlots) (keyed : IsList m keys.list keySlots)
    (valued : IsList m values xs) (empty : Buffer m xs.length spare [])
    (apart : [keys.list.room, values.room, spare.room].Nodup)
    (new : ∀ room ∈ [keys.list.room, values.room, spare.room], m₀.taken ≤ room)
    (kept : Keeps (fun _ => False) m₀ m) :
    ∃ rows p q m', merged elementAt steps keys (BitVec.ofNat 64 xs.length) [⟨values, spare⟩] m =
        .answered (p, [q]) m' ∧
      Stable keys.less keySlots rows ∧ IsList m' q (rows.map (slotOf xs)) ∧
      Keeps (fun _ => False) m₀ m' := by
  have ready : List.Forall₂ (Ready m keySlots.length) [⟨values, spare⟩] [xs] :=
    .cons ⟨long.symm, valued, long ▸ empty⟩ .nil
  obtain ⟨rows, p, ps, m', ran, stable, -, others, kept'⟩ := merged_spec (fun _ _ _ => rfl)
    (long ▸ enough) total keyed ready (by simpa [roomsOf] using apart)
  rcases others with _ | @⟨q, _, _, _, answered, none⟩
  cases none
  refine ⟨rows, p, q, m', long ▸ ran, stable, answered, kept.andThen ?_ kept'⟩
  intro room before member
  have := new room (by simpa [roomsOf] using member)
  omega

/-- A sort answers a list of its own, the elements in the one stable order of their keys. -/
lemma sorted_spec {m : Memory} {list : Pointer} {xs : List Slot} (holds : IsList m list xs)
    {steps : ℕ} (enough : xs.length < steps) {subject : Placing} (made : subject.noValue = false)
    (ordered : Ordered subject xs) :
    ∃ rows p m', sorted steps subject list m = .answered p m' ∧
      Stable (keyLess subject) (xs.map (keyOf subject)) rows ∧
      IsList m' p (rows.map (slotOf xs)) ∧ Keeps (fun _ => False) m m' := by
  obtain ⟨m₁, ran₁, values, kept₁⟩ := copied_spec holds
  obtain ⟨keys, m₂, ran₂, keySlots, less, kept₂, which⟩ := sortKeys_spec subject values
  have inside : m.taken < m₁.taken := values.taken
  have total := ordered.keys
  rw [← less] at total ⊢
  unfold sorted
  rw [made, if_neg (by simp), Run.bind_answered holds.length_eq, Run.bind_answered ran₁,
    Run.bind_answered ran₂]
  by_cases byValues : keys.byValues = true
  · rw [if_pos byValues] at which ⊢
    obtain ⟨same, plain⟩ := which
    obtain ⟨rows, p, ps, m₃, ran₃, stable, answered, -, kept₃⟩ := merged_spec (fun _ _ _ => rfl)
      (by simpa using enough) total keySlots .nil (by simp [roomsOf])
    rw [List.length_map] at ran₃
    refine ⟨rows, p, m₃, Run.bind_answered ran₃, stable, ?_, ?_⟩
    · rw [plain, List.map_id] at answered
      exact answered
    · refine (kept₁.trans kept₂).andThen (fun room before member => ?_) kept₃
      rw [same] at member
      simp [roomsOf] at member
      omega
  · rw [if_neg byValues] at which ⊢
    obtain ⟨m₃, ran₃, spare, kept₃⟩ := newList_buffer holds.short m₂
    have further : m₁.taken ≤ m₂.taken := kept₂.taken
    have there : keys.list.room < m₂.taken := keySlots.taken
    obtain ⟨rows, p, q, m₄, ran₄, stable, answered, kept⟩ := merged_beside enough (by simp) total
      (keySlots.keeps kept₃ id) ((values.keeps kept₂ id).keeps kept₃ id) spare
      (by simp; omega) (by simp; omega) ((kept₁.trans kept₂).trans kept₃)
    refine ⟨rows, q, m₄, ?_, stable, answered, kept⟩
    rw [Run.bind_answered ran₃, Run.bind_answered ran₄]
    rfl

/-- A sort by a key answers a list of its own, the elements in the one stable order of what the key
    answered for each. -/
lemma sortedBy_spec {m : Memory} {list : Pointer} {xs : List Slot} (holds : IsList m list xs)
    {steps : ℕ} (enough : xs.length < steps) {subject : Placing} (made : subject.noValue = false)
    {key : Slot → Run Slot} {keyed : List Slot} (long : keyed.length = xs.length)
    (answers : ∀ i < xs.length, ∀ m', Keeps (fun _ => False) m m' → ∃ m'',
      key (slotOf xs i) m' = .answered (slotOf keyed i) m'' ∧ Keeps (fun _ => False) m' m'')
    (ordered : Ordered subject keyed) :
    ∃ rows p m', sortedBy steps false key subject list m = .answered p m' ∧
      Stable (keyLess subject) (keyed.map (keyOf subject)) rows ∧
      IsList m' p (rows.map (slotOf xs)) ∧ Keeps (fun _ => False) m m' := by
  obtain ⟨m₁, ran₁, empty, kept₁⟩ := newList_buffer holds.short m
  have inside := holds.taken
  have before₁ : m.taken < m₁.taken := empty.taken
  obtain ⟨m₂, ran₂, filled, touched⟩ := fill_rule empty
    (fun place => do
      let element ← load (elementAt list place)
      let answered ← key element
      store (elementAt ⟨m.taken, 0⟩ place) answered) (slotOf keyed) (by
      intro i before m' keeps
      have here := (holds.keeps kept₁ id).keeps keeps (by simp; omega)
      have old : Keeps (fun _ => False) m m' := kept₁.andThen (fun room before same => by
        have here : m.taken = room := same
        omega) keeps
      obtain ⟨m'', answered, aside⟩ := answers i before m' old
      refine ⟨m'', ?_, aside⟩
      rw [Run.bind_answered (here.toRoomy.load_element before (here.elements i _ (slotOf_eq before))),
        Run.bind_answered answered])
  rw [map_slotOf long] at filled
  have kept₂ : Keeps (fun _ => False) m m₂ := kept₁.andThen (fun room before same => by
    have here : m.taken = room := same
    omega) touched
  obtain ⟨m₃, ran₃, values, kept₃⟩ := copied_spec (holds.keeps kept₂ id)
  obtain ⟨m₄, ran₄, spare, kept₄⟩ := newList_buffer holds.short m₃
  have keysList := ((filled.isList long).keeps kept₃ id).keeps kept₄ id
  obtain ⟨keys, m₅, ran₅, keySlots, less, kept₅, which⟩ := sortKeys_spec subject keysList
  have total := ordered.keys
  rw [← less] at total ⊢
  have before₂ : m₁.taken ≤ m₂.taken := touched.taken
  have before₃ : m₂.taken < m₃.taken := values.taken
  have before₄ : m₃.taken < m₄.taken := spare.taken
  -- The keys are in the first list made, or in the last.
  have place : keys.list.room = m.taken ∨ m₄.taken ≤ keys.list.room := by
    by_cases byValues : keys.byValues = true
    · rw [if_pos byValues] at which
      left
      rw [which.1]
    · rw [if_neg byValues] at which
      exact Or.inr which
  obtain ⟨rows, p, q, m₆, ran₆, stable, answered, kept⟩ := merged_beside enough (by simpa using long)
    total keySlots ((values.keeps kept₄ id).keeps kept₅ id) (spare.keeps kept₅ id)
    (by simp; omega) (by simp; omega) (((kept₂.trans kept₃).trans kept₄).trans kept₅)
  refine ⟨rows, q, m₆, ?_, stable, answered, kept⟩
  unfold sortedBy
  rw [if_neg (by simp), Run.bind_answered holds.length_eq, Run.bind_answered ran₁,
    Run.bind_answered ran₂, made, if_neg (by simp), Run.bind_answered ran₃, Run.bind_answered ran₄]
  rw [long] at ran₅
  rw [Run.bind_answered ran₅, Run.bind_answered ran₆]
  rfl

/-- Where no key has a value, there is nothing to compare, and the list is answered as it is. -/
lemma sortedBy_noValue {m : Memory} {list : Pointer} {xs : List Slot} (holds : IsList m list xs)
    (empty : xs = []) {steps : ℕ} (key : Slot → Run Slot) {subject : Placing}
    (made : subject.noValue = true) :
    ∃ m', sortedBy steps false key subject list m = .answered list m' ∧
      Keeps (fun _ => False) m m' := by
  obtain ⟨m₁, ran₁, -, kept₁⟩ := newList_buffer holds.short m
  refine ⟨m₁, ?_, kept₁⟩
  have none : (BitVec.ofNat 64 xs.length) = 0 := by
    rw [empty]
    rfl
  unfold sortedBy
  rw [if_neg (by simp), Run.bind_answered holds.length_eq, Run.bind_answered ran₁, none, each,
    eachFrom, if_neg (by simp [BitVec.slt]), made]
  rfl

/-- A row none is past, and that is past every row before it. -/
structure FirstExtreme (op : Extreme) (less : Slot → Slot → Bool) (keys : List Slot)
    (row : ℕ) : Prop where
  inside : row < keys.length
  most : ∀ other < keys.length, beyond op less (slotOf keys other) (slotOf keys row) = false
  first : ∀ other < row, beyond op less (slotOf keys row) (slotOf keys other) = true

lemma TotalPreorder.beyond {less : Slot → Slot → Bool} {slots : List Slot}
    (total : TotalPreorder less slots) (op : Extreme) :
    TotalPreorder (beyond op less) slots := by
  cases op with
  | greatest =>
    exact ⟨fun a ha b hb => total.asymm b hb a ha,
      fun a ha b hb c hc first second => total.trans c hc b hb a ha second first⟩
  | least => exact total

structure BestSoFar (past : Slot → Slot → Bool) (keys : List Slot) (walked best : ℕ) : Prop where
  inside : best ≤ walked
  most : ∀ other ≤ walked, past (slotOf keys other) (slotOf keys best) = false
  first : ∀ other < best, past (slotOf keys best) (slotOf keys other) = true

lemma BestSoFar.next {past : Slot → Slot → Bool} {keys : List Slot} {walked best : ℕ}
    (total : TotalPreorder past keys) (some : keys ≠ []) (found : BestSoFar past keys walked best) :
    BestSoFar past keys (walked + 1)
      (if past (slotOf keys (walked + 1)) (slotOf keys best) then walked + 1 else best) := by
  have member (row : ℕ) : slotOf keys row ∈ keys := slotOf_mem some row
  by_cases further : past (slotOf keys (walked + 1)) (slotOf keys best) = true
  · rw [if_pos further]
    have past_all : ∀ other ≤ walked,
        past (slotOf keys (walked + 1)) (slotOf keys other) = true := by
      intro other before
      by_contra level
      have whole := total.trans _ (member best) _ (member other) _ (member (walked + 1))
        (found.most other before) (by simpa using level)
      rw [whole] at further
      cases further
    refine ⟨le_rfl, ?_, fun other before => past_all other (by omega)⟩
    intro other before
    by_cases last : other = walked + 1
    · subst last
      by_contra itself
      have same := total.asymm _ (member (walked + 1)) _ (member (walked + 1))
        (by simpa using itself)
      exact itself same
    · exact total.asymm _ (member _) _ (member _) (past_all other (by omega))
  · rw [if_neg further]
    refine ⟨by have := found.inside; omega, ?_, found.first⟩
    intro other before
    by_cases last : other = walked + 1
    · subst last
      simpa using further
    · exact found.most other (by omega)

lemma rest_ofNat {count : ℕ} (short : count ≤ 2 ^ 59) :
    (if (BitVec.ofNat 64 count + -1).slt 0 then 0 else BitVec.ofNat 64 count + -1) =
      BitVec.ofNat 64 (count - 1) := by
  cases count with
  | zero => decide
  | succ count =>
    have less : BitVec.ofNat 64 (count + 1) + -1 = BitVec.ofNat 64 count := by
      rw [BitVec.ofNat_add, BitVec.add_assoc]
      exact BitVec.add_zero _
    rw [less, show (0 : Word) = BitVec.ofNat 64 0 from rfl, slt_ofNat (by omega) (by omega)]
    simp

/-- The greatest and the least of a list are the first of them, and there is none of an empty
    list. -/
lemma extreme_spec {m : Memory} {list : Pointer} {xs : List Slot} (holds : IsList m list xs)
    {subject : Placing} (made : subject.noValue = false) (ordered : Ordered subject xs)
    (op : Extreme) :
    ∃ chosen m', extreme op subject list m = .answered chosen m' ∧
      Keeps (fun _ => False) m m' ∧ (chosen = none ↔ xs = []) ∧
      ∀ p, chosen = some p → ∃ row,
        FirstExtreme op (keyLess subject) (xs.map (keyOf subject)) row ∧
          p = elementAt list (BitVec.ofNat 64 row) := by
  obtain ⟨keys, m₁, ran₁, keySlots, less, kept₁, -⟩ := sortKeys_spec subject holds
  have short : xs.length ≤ 2 ^ 59 := holds.short
  have total := ordered.keys.beyond op
  rw [← less] at total ⊢
  unfold extreme
  rw [made, if_neg (by simp), Run.bind_answered holds.length_eq, Run.bind_answered ran₁]
  have walked := rest_ofNat short
  by_cases empty : xs = []
  · subst empty
    refine ⟨none, m₁, ?_, kept₁, by simp, by simp⟩
    rw [walked, eachWith, eachWithFrom, if_neg (by simp [BitVec.slt])]
    rfl
  · have more : 0 < xs.length := List.length_pos_iff.mpr empty
    have nonempty : xs.map (keyOf subject) ≠ [] := by simpa using empty
    have read : ∀ row < xs.length, load (elementAt keys.list (BitVec.ofNat 64 row)) m₁ =
        .answered (slotOf (xs.map (keyOf subject)) row) m₁ := fun row before =>
      keySlots.toRoomy.load_element (by simpa using before)
        (keySlots.elements row _ (slotOf_eq (by simpa using before)))
    have start : BestSoFar (beyond op keys.less) (xs.map (keyOf subject)) 0 0 := by
      refine ⟨le_rfl, ?_, by simp⟩
      intro other before
      rw [Nat.le_zero.mp before]
      by_contra itself
      have first := slotOf_mem nonempty 0
      exact itself (total.asymm _ first _ first (by simpa using itself))
    obtain ⟨_, _, ran₂, best, found, rfl, rfl⟩ := eachWith_rule (n := xs.length - 1)
      (by omega) (lookAt op keys list)
      (fun walked soFar m' => ∃ best,
        BestSoFar (beyond op keys.less) (xs.map (keyOf subject)) walked best ∧
          soFar = (some (elementAt list (BitVec.ofNat 64 best)), BitVec.ofNat 64 best) ∧ m₁ = m')
      (by
        rintro i before _ _ ⟨best, found, rfl, rfl⟩
        have inside := found.inside
        refine ⟨_, _, ?_, _, found.next total nonempty, rfl, rfl⟩
        have next : BitVec.ofNat 64 i + 1 = BitVec.ofNat 64 (i + 1) := (BitVec.ofNat_add i 1).symm
        unfold lookAt
        rw [next, Run.bind_answered (read (i + 1) (by omega)),
          Run.bind_answered (read best (by omega)), Run.pure_apply]
        split <;> rfl)
      (s := (some (elementAt list 0), 0)) ⟨0, start, rfl, rfl⟩
    refine ⟨some (elementAt list (BitVec.ofNat 64 best)), m₁, ?_, kept₁, by simp [empty], ?_⟩
    · have counted : (BitVec.ofNat 64 xs.length == 0) = false := by
        rw [beq_eq_false_iff_ne, ne_eq, ← BitVec.toNat_inj]
        simp
        omega
      rw [walked, counted]
      exact Run.bind_answered ran₂
    · rintro p found'
      cases found'
      have inside := found.inside
      refine ⟨best, ⟨by simp; omega, fun other before => ?_, found.first⟩, rfl⟩
      rw [List.length_map] at before
      exact found.most other (by omega)

/-- Sorts are stable and leave what they sort as it was, however many lanes are moved in step and
    however an index past the length would be taken to a slot, and the greatest and the least of a
    list are the first of them. -/
theorem lists_sorted_stably {m : Memory} {list : Pointer} {xs : List Slot} (holds : IsList m list xs)
    {steps : ℕ} (enough : xs.length < steps) :
    (∀ subject : Placing, (subject.noValue = true → xs = []) → Ordered subject xs →
      (∃ rows p m', sorted steps subject list m = .answered p m' ∧
        Stable (keyLess subject) (xs.map (keyOf subject)) rows ∧
        IsList m' p (rows.map (slotOf xs)) ∧ Keeps (fun _ => False) m m') ∧
      ∀ op, ∃ chosen m', extreme op subject list m = .answered chosen m' ∧
        Keeps (fun _ => False) m m' ∧ (chosen = none ↔ xs = []) ∧
        ∀ p, chosen = some p → ∃ row,
          FirstExtreme op (keyLess subject) (xs.map (keyOf subject)) row ∧
            p = elementAt list (BitVec.ofNat 64 row)) ∧
    (∀ (neverRuns : Bool) (key : Slot → Run Slot) (subject : Placing) (keyed : List Slot),
      (neverRuns = true → xs = []) → (subject.noValue = true → xs = []) →
      keyed.length = xs.length →
      (∀ i < xs.length, ∀ m', Keeps (fun _ => False) m m' → ∃ m'',
        key (slotOf xs i) m' = .answered (slotOf keyed i) m'' ∧ Keeps (fun _ => False) m' m'') →
      Ordered subject keyed →
      ∃ rows p m', sortedBy steps neverRuns key subject list m = .answered p m' ∧
        Stable (keyLess subject) (keyed.map (keyOf subject)) rows ∧
        IsList m' p (rows.map (slotOf xs)) ∧ Keeps (fun _ => False) m m') ∧
    ∀ (element : Pointer → Word → Pointer) (keys : SortKeys) (beside : List Lane)
      (contents : List (List Slot)),
      (∀ list, ∀ i < xs.length,
        element list (BitVec.ofNat 64 i) = elementAt list (BitVec.ofNat 64 i)) →
      keys.list = list → TotalPreorder keys.less xs →
      List.Forall₂ (Ready m xs.length) beside contents → (list.room :: roomsOf beside).Nodup →
      ∃ rows p ps m', merged element steps keys (BitVec.ofNat 64 xs.length) beside m =
          .answered (p, ps) m' ∧
        Stable keys.less xs rows ∧ IsList m' p (rows.map (slotOf xs)) ∧
        List.Forall₂ (fun p slots => IsList m' p (rows.map (slotOf slots))) ps contents ∧
        Keeps (· ∈ list.room :: roomsOf beside) m m' := by
  refine ⟨fun subject none ordered => ⟨?_, fun op => ?_⟩, ?_, ?_⟩
  · cases made : subject.noValue with
    | false => exact sorted_spec holds enough made ordered
    | true =>
      have empty := none made
      subst empty
      refine ⟨[], list, m, ?_, ⟨by simp, by simp⟩, holds, .refl _ m⟩
      unfold sorted
      rw [made]
      rfl
  · cases made : subject.noValue with
    | false => exact extreme_spec holds made ordered op
    | true =>
      have empty := none made
      refine ⟨Option.none, m, ?_, .refl _ m, by simp [empty], by simp⟩
      unfold extreme
      rw [made]
      rfl
  · intro neverRuns key subject keyed never none long answers ordered
    have nothing : xs = [] → Stable (keyLess subject) (keyed.map (keyOf subject)) [] := by
      rintro rfl
      rw [List.length_eq_zero_iff.mp long]
      exact ⟨by simp, by simp⟩
    cases runs : neverRuns with
    | true =>
      have empty := never runs
      refine ⟨[], list, m, ?_, nothing empty, by simpa [empty] using holds, .refl _ m⟩
      unfold sortedBy
      rfl
    | false =>
      cases made : subject.noValue with
      | false => exact sortedBy_spec holds enough made long answers ordered
      | true =>
        have empty := none made
        obtain ⟨m', ran, kept⟩ := sortedBy_noValue holds empty key made
        refine ⟨[], list, m', ran, nothing empty, ?_, kept⟩
        have still := holds.keeps kept id
        simpa [empty] using still
  · rintro element keys beside contents within rfl total ready apart
    exact merged_spec within enough total holds ready apart

def twoWords : Memory :=
  ⟨1, fun _ => 24, fun _ place => [.word 2, .word 5, .word 3][place]?⟩

lemma twoWords_list : IsList twoWords ⟨0, 0⟩ [.word 5, .word 3] where
  front := rfl
  taken := by decide
  roomy := by decide
  short := by decide
  length := rfl
  elements := by
    intro i x stands
    exact stands

/-- Two words, the greater first, sorted. -/
theorem lists_sorted_stably_two :
    ∃ rows p m', sorted 3 ⟨false, none, placeBelow⟩ ⟨0, 0⟩ twoWords = .answered p m' ∧
      Stable placeBelow [.word 5, .word 3] rows ∧
      IsList m' p (rows.map (slotOf [.word 5, .word 3])) ∧ Keeps (fun _ => False) twoWords m' := by
  have sorts := (lists_sorted_stably twoWords_list (by decide : 2 < 3)).1
    ⟨false, none, placeBelow⟩ (by simp) (fun _ => ⟨by decide, by decide⟩)
  exact sorts.1

end SoutherNative.Sorting
