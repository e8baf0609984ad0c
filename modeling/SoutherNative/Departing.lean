import SoutherNative.HostSymbols

set_option autoImplicit false

/-!
# Where a construction that is attempted departs

The clauses of a declaration run in order, and the place of the first that does not hold is what a
constructor answers. An attempted construction goes on from that place to a departure, by a table
made of the clauses' names and the names its departures answer.
-/
namespace SoutherNative.Departing

open HostSymbols

inductive Departures (B : Type)
  | any (body : B)
  | byClause (named : List (Spelling × B)) (unnamed : Option B)

variable {B : Type}

def Departures.bodies : Departures B → List B
  | .any body => [body]
  | .byClause named unnamed => named.map Prod.snd ++ unnamed.toList

/-- Each arm naming a clause, by the name, as the arms from `place` on are put. -/
def armsNamed (clauses : List (Option Spelling)) :
    ℕ → List (Spelling × ℕ) → List (Spelling × B) → Except Spelling (List (Spelling × ℕ))
  | _, arms, [] => .ok arms
  | place, arms, (name, _) :: rest =>
    if some name ∉ clauses then
      .error ("a departure answers the clause ".toList ++ name ++ ", which it does not state".toList)
    else if (arms.lookup name).isSome then
      .error ("two departures answer the clause ".toList ++ name)
    else armsNamed clauses (place + 1) ((name, place) :: arms) rest

def armTaken (arms : List (Spelling × ℕ)) (unnamed : Option ℕ) (place : ℕ) :
    Option Spelling → Except Spelling ℕ
  | some name => match arms.lookup name with
    | some arm => .ok arm
    | none => .error ("its clause ".toList ++ name ++ " is answered by no departure".toList)
  | none => match unnamed with
    | some arm => .ok arm
    | none => .error ("its clause ".toList ++ decimal place ++
        ", which has no name, is answered by no departure".toList)

/-- The arm each clause takes, in order from `place` on. -/
def armsTaken (arms : List (Spelling × ℕ)) (unnamed : Option ℕ) :
    ℕ → List (Option Spelling) → Except Spelling (List ℕ)
  | _, [] => .ok []
  | place, clause :: rest => do
    let arm ← armTaken arms unnamed place clause
    let others ← armsTaken arms unnamed (place + 1) rest
    return arm :: others

def departuresTaken (clauses : List (Option Spelling)) :
    Departures B → Except Spelling (List ℕ)
  | .any _ => .ok (List.replicate clauses.length 0)
  | .byClause named unnamed => do
    let arms ← armsNamed clauses 0 [] named
    let unnamedAt := unnamed.map fun _ => named.length
    if unnamedAt.isSome ∧ none ∉ clauses then
      .error ("a departure answers the clauses that have no name, and every clause has one".toList)
    else armsTaken arms unnamedAt 0 clauses

section Run

variable {W S V : Type}

abbrev Clause (W S : Type) := W → Except S Bool × W

def NO_FAILED_CLAUSE : ℤ := -1

structure Checked (V : Type) where
  value : Option V
  clause : ℤ

/-- The clauses from `place` on, and then the value. -/
def defineChecked (layOut : W → V × W) : ℕ → List (Clause W S) → W → Except S (Checked V) × W
  | _, [], world => (.ok ⟨some (layOut world).1, NO_FAILED_CLAUSE⟩, (layOut world).2)
  | place, clause :: rest, world => match clause world with
    | (.error status, world') => (.error status, world')
    | (.ok false, world') => (.ok ⟨none, place⟩, world')
    | (.ok true, world') => defineChecked layOut (place + 1) rest world'

inductive Went (B S V : Type)
  | bound (value : V)
  | departed (arm : ℕ) (body : B)
  | ended (status : S)
  | astray

def switch (taken : List ℕ) (bodies : List B) (clause : ℤ) : Went B S V :=
  if clause < 0 then .astray
  else match taken[clause.toNat]? with
    | some arm => match bodies[arm]? with
      | some body => .departed arm body
      | none => .astray
    | none => .astray

/-- `decide` and where it leads. -/
def attempted (taken : List ℕ) (bodies : List B) : Except S (Checked V) → Went B S V
  | .error status => .ended status
  | .ok checked =>
    if checked.clause = NO_FAILED_CLAUSE then
      match checked.value with
      | some value => .bound value
      | none => .astray
    else switch taken bodies checked.clause

def attempt (names : List (Option Spelling)) (departures : Departures B) (layOut : W → V × W)
    (clauses : List (Clause W S)) (world : W) : Except Spelling (Went B S V × W) := do
  let taken ← departuresTaken names departures
  let (checked, world') := defineChecked layOut 0 clauses world
  return (attempted taken departures.bodies checked, world')

end Run

/-- Any failure has one value; or each clause with a name has one arm naming it and no arm names
another, and there is an arm naming none exactly where a clause has no name. -/
def OneWay (clauses : List (Option Spelling)) : Departures B → Prop
  | .any _ => True
  | .byClause named unnamed =>
    (∀ name, some name ∈ clauses ↔ name ∈ named.map Prod.fst) ∧ (named.map Prod.fst).Nodup ∧
      (unnamed.isSome ↔ none ∈ clauses)

def Answers : Departures B → Option Spelling → ℕ → B → Prop
  | .any body, _, arm, answered => arm = 0 ∧ answered = body
  | .byClause named _, some name, arm, answered => named[arm]? = some (name, answered)
  | .byClause named unnamed, none, arm, answered => arm = named.length ∧ unnamed = some answered

def Tabled (arms : List (Spelling × ℕ)) (named : List (Spelling × B)) : Prop :=
  ∀ name arm, arms.lookup name = some arm ↔ ∃ body, named[arm]? = some (name, body)

theorem tabled_nil : Tabled [] ([] : List (Spelling × B)) := by
  intro name arm
  simp

/-- An arm is put under a name no arm has. -/
theorem Tabled.put {arms : List (Spelling × ℕ)} {named : List (Spelling × B)} {name : Spelling}
    (h : Tabled arms named) (hnew : arms.lookup name = none) (body : B) :
    Tabled ((name, named.length) :: arms) (named ++ [(name, body)]) := by
  intro other arm
  by_cases hother : other = name
  · subst hother
    rw [List.lookup_cons, beq_self_eq_true]
    change some named.length = some arm ↔ _
    constructor
    · intro harm
      obtain rfl := Option.some.inj harm
      exact ⟨body, List.getElem?_concat_length⟩
    · rintro ⟨answered, hanswered⟩
      rcases Nat.lt_trichotomy arm named.length with hlt | rfl | hgt
      · rw [List.getElem?_append_left hlt] at hanswered
        have hput := (h other arm).mpr ⟨answered, hanswered⟩
        rw [hnew] at hput
        cases hput
      · rfl
      · rw [List.getElem?_eq_none (by simp; omega)] at hanswered
        cases hanswered
  · have hne : (other == name) = false := beq_eq_false_iff_ne.mpr hother
    rw [List.lookup_cons, hne]
    change arms.lookup other = some arm ↔ _
    rw [h other arm]
    constructor
    · rintro ⟨answered, hanswered⟩
      have hlt := (List.getElem?_eq_some_iff.mp hanswered).1
      exact ⟨answered, by rw [List.getElem?_append_left hlt, hanswered]⟩
    · rintro ⟨answered, hanswered⟩
      rcases Nat.lt_trichotomy arm named.length with hlt | rfl | hgt
      · rw [List.getElem?_append_left hlt] at hanswered
        exact ⟨answered, hanswered⟩
      · rw [List.getElem?_concat_length, Option.some.injEq, Prod.mk.injEq] at hanswered
        exact absurd hanswered.1.symm hother
      · rw [List.getElem?_eq_none (by simp; omega)] at hanswered
        cases hanswered

theorem Tabled.lookup_isSome {arms : List (Spelling × ℕ)} {named : List (Spelling × B)}
    (h : Tabled arms named) (name : Spelling) :
    (arms.lookup name).isSome ↔ name ∈ named.map Prod.fst := by
  rw [Option.isSome_iff_exists, List.mem_map]
  constructor
  · rintro ⟨arm, harm⟩
    obtain ⟨body, hbody⟩ := (h name arm).mp harm
    exact ⟨(name, body), List.mem_of_getElem? hbody, rfl⟩
  · rintro ⟨⟨_, body⟩, hmem, rfl⟩
    obtain ⟨arm, harm⟩ := List.getElem?_of_mem hmem
    exact ⟨arm, (h _ arm).mpr ⟨body, harm⟩⟩

theorem armsNamed_spec (clauses : List (Option Spelling)) {arms : List (Spelling × ℕ)}
    {done : List (Spelling × B)} (rest : List (Spelling × B)) (h : Tabled arms done)
    (hdone : (done.map Prod.fst).Nodup) :
    match armsNamed clauses done.length arms rest with
    | .ok arms' => (∀ name ∈ rest.map Prod.fst, some name ∈ clauses) ∧
        ((done ++ rest).map Prod.fst).Nodup ∧ Tabled arms' (done ++ rest)
    | .error _ => ¬ ((∀ name ∈ rest.map Prod.fst, some name ∈ clauses) ∧
        ((done ++ rest).map Prod.fst).Nodup) := by
  induction rest generalizing arms done with
  | nil => simpa [armsNamed] using ⟨hdone, h⟩
  | cons arm rest ih =>
    obtain ⟨name, body⟩ := arm
    rw [armsNamed]
    by_cases hclause : some name ∈ clauses
    · rw [if_neg (not_not.mpr hclause)]
      by_cases hput : (arms.lookup name).isSome
      · rw [if_pos hput]
        rintro ⟨-, hnodup⟩
        rw [List.map_append, List.map_cons, List.nodup_middle, List.nodup_cons] at hnodup
        exact hnodup.1 (List.mem_append_left _ ((h.lookup_isSome name).mp hput))
      · rw [if_neg hput]
        have hnew : name ∉ done.map Prod.fst := fun hmem => hput ((h.lookup_isSome name).mpr hmem)
        have hput' := h.put (Option.not_isSome_iff_eq_none.mp hput) body
        have hdone' : ((done ++ [(name, body)]).map Prod.fst).Nodup := by
          rw [List.map_append, List.map_singleton, ← List.concat_eq_append]
          exact hdone.concat hnew
        have hrest := ih hput' hdone'
        rw [List.length_append, List.length_singleton, List.append_assoc,
          List.singleton_append] at hrest
        have hall : (∀ other ∈ ((name, body) :: rest).map Prod.fst, some other ∈ clauses) ↔
            ∀ other ∈ rest.map Prod.fst, some other ∈ clauses := by
          rw [List.map_cons, List.forall_mem_cons]
          exact and_iff_right hclause
        rw [hall]
        exact hrest
    · rw [if_pos hclause]
      rintro ⟨hall, -⟩
      exact hclause (hall name List.mem_cons_self)

def armOf (arms : List (Spelling × ℕ)) (unnamed : Option ℕ) : Option Spelling → Option ℕ
  | some name => arms.lookup name
  | none => unnamed

theorem armTaken_eq_ok {arms : List (Spelling × ℕ)} {unnamed : Option ℕ} {place : ℕ}
    {clause : Option Spelling} {arm : ℕ} :
    armTaken arms unnamed place clause = .ok arm ↔ armOf arms unnamed clause = some arm := by
  cases clause with
  | some name =>
    rw [armTaken, armOf]
    cases arms.lookup name <;> simp
  | none => cases unnamed <;> simp [armTaken, armOf]

theorem armTaken_error {arms : List (Spelling × ℕ)} {unnamed : Option ℕ} {place : ℕ}
    {clause : Option Spelling} {why : Spelling}
    (h : armTaken arms unnamed place clause = .error why) : armOf arms unnamed clause = none := by
  cases hof : armOf arms unnamed clause with
  | none => rfl
  | some arm =>
    rw [armTaken_eq_ok.mpr hof] at h
    cases h

theorem armsTaken_spec (arms : List (Spelling × ℕ)) (unnamed : Option ℕ) (place : ℕ)
    (clauses : List (Option Spelling)) :
    match armsTaken arms unnamed place clauses with
    | .ok taken => List.Forall₂ (fun clause arm => armOf arms unnamed clause = some arm) clauses taken
    | .error _ => ∃ clause ∈ clauses, armOf arms unnamed clause = none := by
  induction clauses generalizing place with
  | nil => exact .nil
  | cons clause rest ih =>
    rw [armsTaken]
    cases htaken : armTaken arms unnamed place clause with
    | error why => exact ⟨clause, List.mem_cons_self, armTaken_error htaken⟩
    | ok arm =>
      have hrest := ih (place + 1)
      cases hothers : armsTaken arms unnamed (place + 1) rest with
      | error why =>
        rw [hothers] at hrest
        obtain ⟨other, hmem, hnone⟩ := hrest
        exact ⟨other, List.mem_cons_of_mem _ hmem, hnone⟩
      | ok others =>
        rw [hothers] at hrest
        exact .cons (armTaken_eq_ok.mp htaken) hrest

def Table (clauses : List (Option Spelling)) (departures : Departures B) (taken : List ℕ) : Prop :=
  List.Forall₂ (fun clause arm => ∃ body, Answers departures clause arm body) clauses taken

theorem departuresTaken_spec (clauses : List (Option Spelling)) (departures : Departures B) :
    match departuresTaken clauses departures with
    | .ok taken => OneWay clauses departures ∧ Table clauses departures taken
    | .error _ => ¬ OneWay clauses departures := by
  cases departures with
  | any body =>
    refine ⟨trivial, ?_⟩
    rw [Table, List.forall₂_iff_get]
    refine ⟨List.length_replicate.symm, ?_⟩
    intro i hi hi'
    exact ⟨body, List.getElem_replicate hi', rfl⟩
  | byClause named unnamed =>
    have hnamed := armsNamed_spec clauses named tabled_nil List.nodup_nil
    rw [List.nil_append, List.length_nil] at hnamed
    rw [departuresTaken]
    cases harms : armsNamed clauses 0 [] named with
    | error why =>
      rw [harms] at hnamed
      rintro ⟨hall, hnodup, -⟩
      exact hnamed ⟨fun name hmem => (hall name).mpr hmem, hnodup⟩
    | ok arms =>
      rw [harms] at hnamed
      obtain ⟨hall, hnodup, htabled⟩ := hnamed
      change match (if (unnamed.map fun _ => named.length).isSome ∧ none ∉ clauses then
          .error _ else armsTaken arms (unnamed.map fun _ => named.length) 0 clauses) with
        | .ok taken => OneWay clauses (.byClause named unnamed) ∧
            Table clauses (.byClause named unnamed) taken
        | .error _ => ¬ OneWay clauses (.byClause named unnamed)
      rw [Option.isSome_map]
      by_cases hneedless : unnamed.isSome = true ∧ none ∉ clauses
      · rw [if_pos hneedless]
        rintro ⟨-, -, hunnamed⟩
        exact hneedless.2 (hunnamed.mp hneedless.1)
      · rw [if_neg hneedless]
        have htaken := armsTaken_spec arms (unnamed.map fun _ => named.length) 0 clauses
        cases hclauses : armsTaken arms (unnamed.map fun _ => named.length) 0 clauses with
        | error why =>
          rw [hclauses] at htaken
          obtain ⟨clause, hmem, hnone⟩ := htaken
          rintro ⟨hall', -, hunnamed⟩
          cases clause with
          | none =>
            have hsome := hunnamed.mpr hmem
            rw [armOf, Option.map_eq_none_iff] at hnone
            rw [hnone] at hsome
            cases hsome
          | some name =>
            have hsome := (htabled.lookup_isSome name).mpr ((hall' name).mp hmem)
            rw [armOf] at hnone
            rw [hnone] at hsome
            cases hsome
        | ok taken =>
          rw [hclauses] at htaken
          have hof : ∀ clause ∈ clauses,
              (armOf arms (unnamed.map fun _ => named.length) clause).isSome = true := by
            intro clause hmem
            obtain ⟨i, hi, rfl⟩ := List.getElem_of_mem hmem
            have hget := (List.forall₂_iff_get.mp htaken).2 i hi
              ((List.forall₂_iff_get.mp htaken).1 ▸ hi)
            exact Option.isSome_iff_exists.mpr ⟨_, hget⟩
          refine ⟨⟨?_, hnodup, ?_⟩, List.Forall₂.imp ?_ htaken⟩
          · intro name
            constructor
            · intro hmem
              exact (htabled.lookup_isSome name).mp (hof _ hmem)
            · exact hall name
          · constructor
            · intro hsome
              exact not_not.mp fun hnot => hneedless ⟨hsome, hnot⟩
            · intro hmem
              have hsome := hof _ hmem
              rwa [armOf, Option.isSome_map] at hsome
          · intro clause arm harm
            cases clause with
            | some name => exact (htabled name arm).mp harm
            | none =>
              rw [armOf, Option.map_eq_some_iff] at harm
              obtain ⟨body, hbody, rfl⟩ := harm
              exact ⟨body, rfl, hbody⟩

theorem bodies_getElem {departures : Departures B} {clause : Option Spelling} {arm : ℕ} {body : B}
    (h : Answers departures clause arm body) : departures.bodies[arm]? = some body := by
  cases departures with
  | any answered =>
    obtain ⟨rfl, rfl⟩ := h
    rfl
  | byClause named unnamed =>
    cases clause with
    | some name =>
      change named[arm]? = some (name, body) at h
      have hlt := (List.getElem?_eq_some_iff.mp h).1
      rw [Departures.bodies, List.getElem?_append_left (by rwa [List.length_map]), List.getElem?_map,
        h]
      rfl
    | none =>
      obtain ⟨rfl, rfl⟩ := h
      have hconcat := @List.getElem?_concat_length _ (named.map Prod.snd) body
      rw [List.length_map] at hconcat
      exact hconcat

section Run

variable {W S V : Type}

inductive Holds : List (Clause W S) → W → W → Prop
  | nil (world : W) : Holds [] world world
  | cons {clause : Clause W S} {rest : List (Clause W S)} {world world₁ world₂ : W} :
    clause world = (.ok true, world₁) → Holds rest world₁ world₂ →
      Holds (clause :: rest) world world₂

/-- The clauses before the one at a place hold, and that one ends as `ends` has it; none after it is
run. -/
def StopsAt (clauses : List (Clause W S)) (world : W) (place : ℕ) (ends : Except S Bool)
    (world' : W) : Prop :=
  ∃ before clause after world₁, clauses = before ++ clause :: after ∧ before.length = place ∧
    Holds before world world₁ ∧ clause world₁ = (ends, world')

theorem StopsAt.later {clause : Clause W S} {rest : List (Clause W S)} {world world₁ world' : W}
    {place : ℕ} {ends : Except S Bool} (hclause : clause world = (.ok true, world₁))
    (h : StopsAt rest world₁ place ends world') :
    StopsAt (clause :: rest) world (place + 1) ends world' := by
  obtain ⟨before, at', after, world₂, rfl, hlength, hholds, hends⟩ := h
  exact ⟨clause :: before, at', after, world₂, rfl, congrArg (· + 1) hlength,
    .cons hclause hholds, hends⟩

/-- A constructor answers the value where every clause holds, the place of the first that does not,
or the status of the first that does not answer. -/
theorem defineChecked_cases (layOut : W → V × W) (first : ℕ) (clauses : List (Clause W S))
    (world : W) :
    (∃ world', Holds clauses world world' ∧ defineChecked layOut first clauses world =
      (.ok ⟨some (layOut world').1, NO_FAILED_CLAUSE⟩, (layOut world').2)) ∨
    (∃ place world', StopsAt clauses world place (.ok false) world' ∧
      defineChecked layOut first clauses world = (.ok ⟨none, (first + place : ℕ)⟩, world')) ∨
    (∃ place status world', StopsAt clauses world place (.error status) world' ∧
      defineChecked layOut first clauses world = (.error status, world')) := by
  induction clauses generalizing first world with
  | nil => exact .inl ⟨world, .nil world, rfl⟩
  | cons clause rest ih =>
    rw [defineChecked]
    cases hclause : clause world with
    | mk ends world₁ =>
      cases ends with
      | error status =>
        exact .inr (.inr ⟨0, status, world₁, ⟨[], clause, rest, world, rfl, rfl, .nil _, hclause⟩, rfl⟩)
      | ok held =>
        cases held with
        | false =>
          exact .inr (.inl ⟨0, world₁, ⟨[], clause, rest, world, rfl, rfl, .nil _, hclause⟩, rfl⟩)
        | true =>
          rcases ih (first + 1) world₁ with ⟨world', hholds, hran⟩ | ⟨place, world', hstops, hran⟩ |
            ⟨place, status, world', hstops, hran⟩
          · exact .inl ⟨world', .cons hclause hholds, hran⟩
          · refine .inr (.inl ⟨place + 1, world', hstops.later hclause, ?_⟩)
            rw [← Nat.add_assoc, Nat.add_right_comm]
            exact hran
          · exact .inr (.inr ⟨place + 1, status, world', hstops.later hclause, hran⟩)

/-- The place of a clause is switched on as what it is, and is no mark of there being none. -/
theorem attempted_broken {taken : List ℕ} {bodies : List B} {place arm : ℕ} {body : B}
    (value : Option V) (htaken : taken[place]? = some arm) (hbody : bodies[arm]? = some body) :
    attempted taken bodies (.ok ⟨value, place⟩ : Except S (Checked V)) = .departed arm body := by
  have hplace : (place : ℤ) ≠ NO_FAILED_CLAUSE := by
    rw [NO_FAILED_CLAUSE]
    omega
  have hnonneg : ¬ (place : ℤ) < 0 := by omega
  rw [attempted, if_neg hplace, switch, if_neg hnonneg, Int.toNat_natCast, htaken]
  simp only [hbody]

/-- An attempted construction goes on to the value where every clause holds, to the arm answering
the first that does not, and ends as the first that does not answer. -/
def GoesOn (names : List (Option Spelling)) (departures : Departures B) (layOut : W → V × W)
    (clauses : List (Clause W S)) (world : W) : Prop :=
  (∃ world', Holds clauses world world' ∧ attempt names departures layOut clauses world =
    .ok (.bound (layOut world').1, (layOut world').2)) ∨
  (∃ place world' name arm body, StopsAt clauses world place (.ok false) world' ∧
    names[place]? = some name ∧ Answers departures name arm body ∧
    departures.bodies[arm]? = some body ∧
    attempt names departures layOut clauses world = .ok (.departed arm body, world')) ∨
  (∃ place status world', StopsAt clauses world place (.error status) world' ∧
    attempt names departures layOut clauses world = .ok (.ended status, world'))

/-- Departures are taken exactly where they answer the clauses one way, and a construction attempted
with them goes on as they answer. -/
theorem departs_to_the_arm_that_answers (names : List (Option Spelling))
    (departures : Departures B) :
    ((∃ taken, departuresTaken names departures = .ok taken) ↔ OneWay names departures) ∧
    (OneWay names departures → ∀ (layOut : W → V × W) (clauses : List (Clause W S)) (world : W),
      clauses.length = names.length → GoesOn names departures layOut clauses world) := by
  have hspec := departuresTaken_spec names departures
  cases htaken : departuresTaken names departures with
  | error why =>
    rw [htaken] at hspec
    refine ⟨⟨?_, fun h => absurd h hspec⟩, fun h => absurd h hspec⟩
    rintro ⟨taken, htaken'⟩
    cases htaken'
  | ok taken =>
    rw [htaken] at hspec
    obtain ⟨honeWay, htable⟩ := hspec
    refine ⟨⟨fun _ => honeWay, fun _ => ⟨taken, rfl⟩⟩, ?_⟩
    intro _ layOut clauses world hlength
    have hattempt : attempt names departures layOut clauses world =
        .ok (attempted taken departures.bodies (defineChecked layOut 0 clauses world).1,
          (defineChecked layOut 0 clauses world).2) := by
      rw [attempt, htaken]
      rfl
    rw [GoesOn, hattempt]
    rcases defineChecked_cases layOut 0 clauses world with ⟨world', hholds, hran⟩ |
      ⟨place, world', hstops, hran⟩ | ⟨place, status, world', hstops, hran⟩
    · exact .inl ⟨world', hholds, by rw [hran]; rfl⟩
    · right
      left
      obtain ⟨before, clause, after, world₁, hclauses, hplace, -⟩ := id hstops
      have hlt : place < names.length := by
        rw [← hlength, hclauses, List.length_append, List.length_cons]
        omega
      have htaken' := List.forall₂_iff_get.mp htable
      have hlt' : place < taken.length := htaken'.1 ▸ hlt
      obtain ⟨body, hanswers⟩ := htaken'.2 place hlt hlt'
      have hbody := bodies_getElem hanswers
      refine ⟨place, world', names[place], taken[place], body, hstops,
        List.getElem?_eq_getElem hlt, hanswers, hbody, ?_⟩
      rw [hran, Nat.zero_add]
      exact congrArg (fun went => Except.ok (went, world'))
        (attempted_broken none (List.getElem?_eq_getElem hlt') hbody)
    · exact .inr (.inr ⟨place, status, world', hstops, by rw [hran]; rfl⟩)

end Run

def namedAndNot : Departures ℕ := .byClause [("b".toList, 10)] (some 20)

def secondBroken : List (Clause (List ℕ) ℕ) :=
  [fun world => (.ok true, world ++ [0]), fun world => (.ok false, world ++ [1])]

theorem namedAndNot_oneWay : OneWay [none, some "b".toList] namedAndNot := by
  refine ⟨?_, by decide, by decide⟩
  intro name
  simp

theorem second_broken_departs :
    GoesOn [none, some "b".toList] namedAndNot (fun world => ((), world)) secondBroken [] :=
  (departs_to_the_arm_that_answers [none, some "b".toList] namedAndNot).2 namedAndNot_oneWay
    (fun world => ((), world)) secondBroken [] rfl

end SoutherNative.Departing
