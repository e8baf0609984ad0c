import SoutherNative.Building
import SoutherNative.LinkerNames

set_option autoImplicit false

/-!
# What a host constructs

A document's behaviors, which of them a host has to build a capability of, and the surfaces of the
objects put together into one library. A host builds a capability a step at a time, of a behavior
it implements or of one constructed from what it requires.
-/
namespace SoutherNative.Constructing
open HostSymbols LinkerNames Building

inductive Answers
  | body | composed | injected | elsewhere | unwritten
  deriving DecidableEq

def Answers.spelt : Answers → Spelling
  | .body => "Body".toList
  | .composed => "Composed".toList
  | .injected => "Injected".toList
  | .elsewhere => "Elsewhere".toList
  | .unwritten => "Unwritten".toList

structure Requirement where
  module : Spelling
  name : Spelling
  deriving DecidableEq

def Requirement.declared (requirement : Requirement) : Spelling :=
  requirement.module ++ '.' :: requirement.name

structure Target where
  module : Spelling
  name : Spelling
  is : Answers
  requirements : List Requirement

def Target.declared (target : Target) : Spelling := target.module ++ '.' :: target.name

/-- What a local definition is: a body, or the stages of a composition by the behaviors they
    apply. -/
inductive Made
  | body
  | composed (stages : List Spelling)

structure Definition where
  declared : Spelling
  published : Bool
  made : Made

structure Module where
  name : Spelling
  definitions : List Definition

/-- What is defined, and the behaviors it and what it reaches are written as. -/
structure Program where
  modules : List Module
  behaviors : List Target

def Program.locals (program : Program) : List (Module × Definition) :=
  program.modules.flatMap fun written => written.definitions.map fun local' => (written, local')

def Program.reached (program : Program) (declared : Spelling) :
    Option (Fin program.behaviors.length) :=
  program.behaviors.findFinIdx? fun target => target.declared = declared

def Program.target (program : Program) (place : Fin program.behaviors.length) : Target :=
  program.behaviors.get place

def Program.defining (program : Program) (declared : Spelling) : Option Definition :=
  (program.locals.map Prod.snd).find? fun local' => local'.declared = declared

def Program.builds (program : Program) (module : Spelling) : Bool :=
  program.modules.any fun written => written.name = module

inductive Defined
  | here | byTheHost | elsewhere | nowhere
  deriving DecidableEq

def Program.defined (program : Program) (target : Target) : Defined :=
  match target.is, program.builds target.module with
  | .body, _ => .here
  | .composed, _ => .here
  | .injected, true => .byTheHost
  | .injected, false => .elsewhere
  | .elsewhere, _ => .elsewhere
  | .unwritten, _ => .nowhere

def Program.named (program : Program) (declared : Spelling) : Except Spelling Target :=
  match program.reached declared with
  | some place => pure (program.target place)
  | none => .error (declared ++ ", which no target names".toList)

def once {α : Type} (keyOf : α → Spelling) (twice : Spelling → Spelling) :
    List Spelling → List α → Except Spelling Unit
  | _, [] => pure ()
  | met, item :: rest =>
    if keyOf item ∈ met then .error (twice (keyOf item))
    else once keyOf twice (keyOf item :: met) rest

def Program.requirements (program : Program) (local' : Definition) : List Requirement :=
  match program.reached local'.declared with
  | some place => (program.target place).requirements
  | none => []

def agreesWithItsTarget (target : Target) (local' : Definition) : Except Spelling Unit :=
  match target.is, local'.made with
  | .body, .body => pure ()
  | .composed, .composed _ => pure ()
  | is, _ => .error (target.declared ++ " crosses as ".toList ++ is.spelt ++
      (" in the table of targets, and as a different kind of local definition: the two halves " ++
        "disagree about how it is defined").toList)

def requiresWhatItNames (program : Program) (name : Spelling) :
    List Spelling → List Requirement → Except Spelling Unit
  | _, [] => pure ()
  | seen, requirement :: rest => do
    let _ ← program.named requirement.declared
    if requirement.declared = name then
      .error (name ++ " requires itself injected, which constructing it could never be handed".toList)
    else if requirement.declared ∈ seen then
      .error (name ++ " requires ".toList ++ requirement.declared ++
        (" twice: the checker answers each dependency once, and the two halves disagree about " ++
          "what constructing it takes").toList)
    else requiresWhatItNames program name (requirement.declared :: seen) rest

def stagesAreHandedWhatTheyRequire (program : Program) (name : Spelling)
    (requirements : List Requirement) : List Spelling → Except Spelling Unit
  | [] => pure ()
  | stage :: rest => do
    let reached ← program.named stage
    let handed := fun behavior => requirements.any fun it => it.declared = behavior
    if reached.is = .injected then
      if handed stage then stagesAreHandedWhatTheyRequire program name requirements rest
      else .error (name ++ "'s stage ".toList ++ stage ++
        " is implemented by a host and is not among what ".toList ++ name ++
        " requires: a composition holds the stage it is handed".toList)
    else
      match reached.requirements.find? fun it => !handed it.declared with
      | some missing => .error (name ++ "'s stage ".toList ++ stage ++ " requires ".toList ++
          missing.declared ++ ", which is not among what ".toList ++ name ++
          " requires: a composition requires what its stages do".toList)
      | none => stagesAreHandedWhatTheyRequire program name requirements rest

def coherent (program : Program) : Except Spelling Unit := do
  once Target.declared (fun name => "two behaviors are both written ".toList ++ name) []
    program.behaviors
  program.modules.forM fun written =>
    if spellsAModule written.name then pure ()
    else .error ("a module is written ".toList ++ written.name ++ ", which no symbol can carry".toList)
  once Module.name (fun name => "two modules are both written ".toList ++ name) [] program.modules
  program.locals.forM fun (written, local') => do
    let target ← program.named local'.declared
    if target.module = written.name then pure ()
    else .error (written.name ++ " defines ".toList ++ local'.declared ++ ", which ".toList ++
      target.module ++ " declares: a module defines the behaviors it declares".toList)
  once (fun local' : Module × Definition => local'.2.declared)
    (fun name => "two local definitions are both written ".toList ++ name) [] program.locals
  program.behaviors.forM fun target =>
    if !spellsAModule target.module || !spellsAName target.name then
      .error ("a behavior is written ".toList ++ target.declared ++ ", which no symbol can carry".toList)
    else if (target.is = .body ∨ target.is = .composed) ∧ program.defining target.declared = none then
      .error (target.declared ++
        " answers with a local definition no module of this document carries".toList)
    else if target.is = .elsewhere ∧ program.builds target.module then
      .error (target.declared ++ " is implemented by another build, and its module ".toList ++
        target.module ++ " is one this document builds".toList)
    else if target.is = .injected ∧ target.requirements ≠ [] then
      .error (target.declared ++ " answers as ".toList ++ target.is.spelt ++
        (" and requires something to construct, and a host's is not constructed: the two halves " ++
          "disagree").toList)
    else pure ()
  program.locals.forM fun (_, local') => do
    let target ← program.named local'.declared
    agreesWithItsTarget target local'
    requiresWhatItNames program local'.declared [] (program.requirements local')
    match local'.made with
    | .body => pure ()
    | .composed stages =>
      stagesAreHandedWhatTheyRequire program local'.declared (program.requirements local') stages

def Program.publishes (program : Program) (place : Fin program.behaviors.length) : Bool :=
  let target := program.target place
  program.defined target = .here &&
    match program.defining target.declared with
    | some local' => local'.published
    | none => false

def Program.requiresHere (program : Program) (place : Fin program.behaviors.length) :
    List (Fin program.behaviors.length) :=
  (program.target place).requirements.filterMap fun required =>
    match program.reached required.declared with
    | some place => if program.defined (program.target place) = .here then some place else none
    | none => none

def Program.walk (program : Program) :
    List (Fin program.behaviors.length) → List (Fin program.behaviors.length) →
      List (Fin program.behaviors.length)
  | met, [] => met
  | met, place :: owed =>
    if place ∈ met ∨ (program.target place).requirements = [] then program.walk met owed
    else program.walk (met ++ [place]) (program.requiresHere place ++ owed)
termination_by met owed => ((Finset.univ.filter (· ∉ met)).card, owed.length)
decreasing_by
  · exact Prod.Lex.right _ (Nat.lt_succ_self _)
  · rename_i new
    obtain ⟨unmet, -⟩ := not_or.mp new
    apply Prod.Lex.left
    apply Finset.card_lt_card
    refine ⟨fun other => by simp +contextual, fun all => ?_⟩
    have there := all (Finset.mem_filter.mpr ⟨Finset.mem_univ place, unmet⟩)
    simp at there

structure Construction where
  name : Spelling
  requires : List Requirement
  binds : Bool
  deriving DecidableEq

def Program.construction (program : Program) (place : Fin program.behaviors.length) :
    Spelling × Construction :=
  let target := program.target place
  (target.module, {
    name := target.name
    requires := target.requirements
    binds := match program.defining target.declared with
      | some local' => match local'.made with
        | .body => true
        | .composed _ => false
      | none => false })

def Program.constructions (program : Program) : List (Spelling × Construction) :=
  (program.walk [] ((List.finRange _).filter program.publishes)).map program.construction

structure Surface where
  name : Spelling
  constructions : List Construction
  injections : List Spelling
  deriving DecidableEq

def entry (name : Spelling) (change : Surface → Surface) : List Surface → List Surface
  | [] => [change ⟨name, [], []⟩]
  | surface :: rest =>
    if surface.name = name then change surface :: rest
    else if name < surface.name then change ⟨name, [], []⟩ :: surface :: rest
    else surface :: entry name change rest

def addConstruction (surfaces : List Surface) (made : Spelling × Construction) : List Surface :=
  entry made.1 (fun surface =>
    { surface with constructions := surface.constructions ++ [made.2] }) surfaces

def addInjection (surfaces : List Surface) (target : Target) : List Surface :=
  entry target.module (fun surface =>
    { surface with injections := surface.injections ++ [target.name] }) surfaces

def Program.surface (program : Program) : List Surface :=
  (program.behaviors.filter fun target => program.defined target = .byTheHost).foldl addInjection
    (program.constructions.foldl addConstruction [])

def constructible (surfaces : List Surface) (required : Requirement) : Bool :=
  surfaces.any fun surface => surface.name = required.module &&
    (required.name ∈ surface.injections ||
      surface.constructions.any fun construction => construction.name = required.name)

def constructsWhole (surfaces : List Surface) : Except Spelling Unit :=
  surfaces.forM fun surface => surface.constructions.forM fun construction =>
    construction.requires.forM fun required =>
      if constructible surfaces required then pure ()
      else .error (surface.name ++ '.' :: construction.name ++ " requires ".toList ++
        required.declared ++
        ", which no object linked constructs or asks a host to implement".toList)

inductive Wanted (program : Program) : Fin program.behaviors.length → Prop
  | published {place : Fin program.behaviors.length} (stated : program.publishes place = true) :
    Wanted program place
  | required {place other : Fin program.behaviors.length} (wanted : Wanted program place)
    {required : Requirement} (among : required ∈ (program.target place).requirements)
    (reaches : program.reached required.declared = some other)
    (here : program.defined (program.target other) = .here) : Wanted program other

def Owed (program : Program) (place : Fin program.behaviors.length) : Prop :=
  Wanted program place ∧ (program.target place).requirements ≠ []

def carried (surfaces : List Surface) : List (Spelling × Construction) :=
  surfaces.flatMap fun surface => surface.constructions.map fun made => (surface.name, made)

def CarriesOwed (program : Program) : Prop :=
  ∃ order : List (Fin program.behaviors.length), order.Nodup ∧
    (∀ place, place ∈ order ↔ Owed program place) ∧
    (carried program.surface).Perm (order.map program.construction)

section

variable {program : Program}

lemma mem_requiresHere {place other : Fin program.behaviors.length} :
    other ∈ program.requiresHere place ↔ ∃ required ∈ (program.target place).requirements,
      program.reached required.declared = some other ∧
        program.defined (program.target other) = .here := by
  unfold Program.requiresHere
  rw [List.mem_filterMap]
  refine exists_congr fun required => and_congr_right fun _ => ?_
  cases reaches : program.reached required.declared with
  | none => simp
  | some found =>
    dsimp only
    by_cases here : program.defined (program.target found) = .here
    · rw [if_pos here]
      constructor
      · rintro ⟨rfl⟩
        exact ⟨rfl, here⟩
      · rintro ⟨same, -⟩
        exact same
    · rw [if_neg here]
      constructor
      · rintro ⟨⟩
      · rintro ⟨⟨rfl⟩, here'⟩
        exact absurd here' here

lemma Wanted.next {place other : Fin program.behaviors.length} (wanted : Wanted program place)
    (member : other ∈ program.requiresHere place) : Wanted program other := by
  obtain ⟨required, among, reaches, here⟩ := mem_requiresHere.mp member
  exact .required wanted among reaches here

lemma walk_sound (met owed : List (Fin program.behaviors.length)) (once : met.Nodup)
    (sound : ∀ place ∈ met, Owed program place) (wanted : ∀ place ∈ owed, Wanted program place) :
    (program.walk met owed).Nodup ∧ ∀ place ∈ program.walk met owed, Owed program place := by
  fun_induction Program.walk program met owed with
  | case1 => exact ⟨once, sound⟩
  | case2 met place owed skipped ih =>
    exact ih once sound fun other member => wanted other (List.mem_cons_of_mem _ member)
  | case3 met place owed new ih =>
    obtain ⟨unmet, some⟩ := not_or.mp new
    have here := wanted place (by simp)
    apply ih
    · rw [List.nodup_append]
      refine ⟨once, List.nodup_singleton _, ?_⟩
      rintro other member _ same rfl
      rw [List.mem_singleton.mp same] at member
      exact unmet member
    · intro other member
      rcases List.mem_append.mp member with before | last
      · exact sound other before
      · rw [List.mem_singleton.mp last]
        exact ⟨here, some⟩
    · intro other member
      rcases List.mem_append.mp member with after | rest
      · exact here.next after
      · exact wanted other (List.mem_cons_of_mem _ rest)

/-- A walk meets what is owed and everything that requires, but for what requires nothing. -/
lemma walk_complete (met owed : List (Fin program.behaviors.length))
    (covered : ∀ place ∈ met, ∀ other ∈ program.requiresHere place,
      other ∈ met ∨ (program.target other).requirements = [] ∨ other ∈ owed) :
    (∀ place, place ∈ met ∨ place ∈ owed →
      place ∈ program.walk met owed ∨ (program.target place).requirements = []) ∧
    ∀ place ∈ program.walk met owed, ∀ other ∈ program.requiresHere place,
      other ∈ program.walk met owed ∨ (program.target other).requirements = [] := by
  fun_induction Program.walk program met owed with
  | case1 met =>
    refine ⟨by simp +contextual, fun place member other among => ?_⟩
    simpa using covered place member other among
  | case2 met place owed skipped ih =>
    have rest := ih fun earlier member other among => by
      rcases covered earlier member other among with before | none | after
      · exact Or.inl before
      · exact Or.inr (Or.inl none)
      · rcases List.mem_cons.mp after with rfl | later
        · rcases skipped with before | none
          · exact Or.inl before
          · exact Or.inr (Or.inl none)
        · exact Or.inr (Or.inr later)
    refine ⟨fun other member => ?_, rest.2⟩
    rcases member with before | after
    · exact rest.1 other (Or.inl before)
    · rcases List.mem_cons.mp after with rfl | later
      · rcases skipped with before | none
        · exact rest.1 other (Or.inl before)
        · exact Or.inr none
      · exact rest.1 other (Or.inr later)
  | case3 met place owed new ih =>
    have rest := ih fun earlier member other among => by
      rcases List.mem_append.mp member with before | last
      · rcases covered earlier before other among with before | none | after
        · exact Or.inl (List.mem_append_left _ before)
        · exact Or.inr (Or.inl none)
        · rcases List.mem_cons.mp after with rfl | later
          · exact Or.inl (List.mem_append_right _ (by simp))
          · exact Or.inr (Or.inr (List.mem_append_right _ later))
      · rw [List.mem_singleton.mp last] at among
        exact Or.inr (Or.inr (List.mem_append_left _ among))
    refine ⟨fun other member => rest.1 other ?_, rest.2⟩
    rcases member with before | after
    · exact Or.inl (List.mem_append_left _ before)
    · rcases List.mem_cons.mp after with rfl | later
      · exact Or.inl (List.mem_append_right _ (by simp))
      · exact Or.inr (List.mem_append_right _ later)

lemma mem_walk {place : Fin program.behaviors.length} :
    place ∈ program.walk [] ((List.finRange _).filter program.publishes) ↔ Owed program place := by
  constructor
  · have sound := (walk_sound [] ((List.finRange _).filter program.publishes) List.nodup_nil
      (by simp) fun place member => .published (List.mem_filter.mp member).2).2
    exact sound place
  · rintro ⟨wanted, some⟩
    obtain ⟨begun, closed⟩ := walk_complete [] ((List.finRange _).filter program.publishes) (by simp)
    have met : place ∈ program.walk [] ((List.finRange _).filter program.publishes) ∨
        (program.target place).requirements = [] := by
      clear some
      induction wanted with
      | published stated => exact begun _ (Or.inr (List.mem_filter.mpr ⟨List.mem_finRange _, stated⟩))
      | @required earlier other _ required among reaches here ih =>
        rcases ih with before | none
        · exact closed _ before other (mem_requiresHere.mpr ⟨required, among, reaches, here⟩)
        · rw [none] at among
          cases among
    exact met.resolve_right some

lemma carried_entry (made : Spelling × Construction) (surfaces : List Surface) :
    (carried (addConstruction surfaces made)).Perm (carried surfaces ++ [made]) := by
  unfold addConstruction
  induction surfaces with
  | nil => exact .refl _
  | cons surface rest ih =>
    unfold entry
    split
    · rename_i same
      simp only [carried, List.flatMap_cons, List.map_append, List.map_cons, List.map_nil]
      rw [same, List.append_assoc, List.append_assoc]
      exact (List.perm_append_comm).append_left _
    · split
      · simp only [carried, List.flatMap_cons, List.nil_append, List.map_cons, List.map_nil]
        exact @List.perm_append_comm _ [made] _
      · simp only [carried, List.flatMap_cons] at ih ⊢
        rw [List.append_assoc]
        exact ih.append_left _

lemma carried_injection (target : Target) (surfaces : List Surface) :
    carried (addInjection surfaces target) = carried surfaces := by
  unfold addInjection
  induction surfaces with
  | nil => rfl
  | cons surface rest ih =>
    unfold entry
    split
    · rfl
    · split
      · rfl
      · simp only [carried, List.flatMap_cons] at ih ⊢
        rw [ih]

lemma carried_surface (program : Program) :
    (carried program.surface).Perm program.constructions := by
  have injections : ∀ (targets : List Target) (surfaces : List Surface),
      carried (targets.foldl addInjection surfaces) = carried surfaces := by
    intro targets
    induction targets with
    | nil => exact fun _ => rfl
    | cons target rest ih =>
      intro surfaces
      rw [List.foldl_cons, ih, carried_injection]
  have constructions : ∀ (made : List (Spelling × Construction)) (surfaces : List Surface),
      (carried (made.foldl addConstruction surfaces)).Perm (carried surfaces ++ made) := by
    intro made
    induction made with
    | nil =>
      intro surfaces
      rw [List.append_nil]
      exact .refl _
    | cons first rest ih =>
      intro surfaces
      rw [List.foldl_cons, List.append_cons]
      exact (ih _).trans ((carried_entry first surfaces).append_right rest)
  unfold Program.surface
  rw [injections]
  exact constructions program.constructions []

/-- What an object carries is owed, each construction once, whatever requires what. -/
lemma carries_owed (program : Program) : CarriesOwed program := by
  refine ⟨_, ?_, fun place => mem_walk, carried_surface program⟩
  exact (walk_sound [] ((List.finRange _).filter program.publishes) List.nodup_nil
    (by simp) fun place member => .published (List.mem_filter.mp member).2).1

end

def Injected (surfaces : List Surface) (behavior : Requirement) : Prop :=
  ∃ surface ∈ surfaces, surface.name = behavior.module ∧ behavior.name ∈ surface.injections

def Bound (surfaces : List Surface) (behavior : Requirement) (requires : List Requirement) : Prop :=
  ∃ surface ∈ surfaces, surface.name = behavior.module ∧ ∃ made ∈ surface.constructions,
    made.name = behavior.name ∧ made.binds = true ∧ made.requires = requires

def required (surfaces : List Surface) : List Requirement :=
  surfaces.flatMap fun surface => surface.constructions.flatMap Construction.requires

/-- A host can build a capability of everything a construction requires, in steps each of which uses
    what was built before it. -/
def HostBuilds (surfaces : List Surface) : Prop :=
  ∃ made, Steps (Injected surfaces) (Bound surfaces) made ∧
    ∀ behavior ∈ required surfaces, behavior ∈ made

/-- What a library requires is grounded: each behavior required is one a host implements or has a
    bind, and of the binds picked none takes, at any depth, the behavior it is of. -/
def RequiresGrounded (surfaces : List Surface) : Prop :=
  Grounded (Injected surfaces) (Bound surfaces) (required surfaces)

/-- Of any documents' surfaces: the objects carry the constructions they owe, and a host can build
    what these require exactly where it is grounded. -/
theorem host_builds_iff_grounded (programs : List Program) :
    (HostBuilds (programs.flatMap Program.surface) ∧ ∀ program ∈ programs, CarriesOwed program) ↔
      RequiresGrounded (programs.flatMap Program.surface) := by
  rw [and_iff_left fun program _ => carries_owed program]
  apply steps_iff_grounded
  rintro _ _ _ ⟨surface, member, -, made, among, -, -, rfl⟩ needed takes
  exact List.mem_flatMap.mpr ⟨surface, member, List.mem_flatMap.mpr ⟨made, among, takes⟩⟩

def eachOther : Program where
  modules := [⟨['m'], [⟨['m', '.', 'a'], true, .body⟩, ⟨['m', '.', 'b'], true, .body⟩]⟩]
  behaviors := [⟨['m'], ['a'], .body, [⟨['m'], ['b']⟩]⟩, ⟨['m'], ['b'], .body, [⟨['m'], ['a']⟩]⟩]

lemma eachOther_walk :
    eachOther.walk [] [⟨0, by decide⟩, ⟨1, by decide⟩] = [⟨0, by decide⟩, ⟨1, by decide⟩] := by
  have first : eachOther.requiresHere ⟨0, by decide⟩ = [⟨1, by decide⟩] := by decide
  have second : eachOther.requiresHere ⟨1, by decide⟩ = [⟨0, by decide⟩] := by decide
  rw [Program.walk.eq_def]
  dsimp only
  rw [if_neg (by decide), first, Program.walk.eq_def]
  dsimp only [List.cons_append, List.nil_append]
  rw [if_neg (by decide), second, Program.walk.eq_def]
  dsimp only [List.cons_append, List.nil_append]
  rw [if_pos (by decide), Program.walk.eq_def]
  dsimp only
  rw [if_pos (by decide), Program.walk.eq_def]

lemma eachOther_surface : eachOther.surface =
    [⟨['m'], [⟨['a'], [⟨['m'], ['b']⟩], true⟩, ⟨['b'], [⟨['m'], ['a']⟩], true⟩], []⟩] := by
  have published : (List.finRange _).filter eachOther.publishes =
      [⟨0, by decide⟩, ⟨1, by decide⟩] := by decide
  unfold Program.surface Program.constructions
  rw [published, eachOther_walk]
  decide

lemma eachOther_bound {behavior : Requirement} {requires : List Requirement}
    (bound : Bound eachOther.surface behavior requires) :
    (behavior = ⟨['m'], ['a']⟩ ∧ requires = [⟨['m'], ['b']⟩]) ∨
      (behavior = ⟨['m'], ['b']⟩ ∧ requires = [⟨['m'], ['a']⟩]) := by
  obtain ⟨module, name⟩ := behavior
  rw [eachOther_surface] at bound
  obtain ⟨_, among, named, made, member, called, -, rfl⟩ := bound
  rw [List.mem_singleton] at among
  subst among
  cases named
  rcases List.mem_cons.mp member with rfl | other
  · cases called
    exact Or.inl ⟨rfl, rfl⟩
  · rw [List.mem_singleton.mp other] at called ⊢
    cases called
    exact Or.inr ⟨rfl, rfl⟩

/-- A document that is held to everything, whose surface is whole, and of which a host can build
    nothing. -/
theorem each_other_never_built : coherent eachOther = .ok () ∧
    constructsWhole eachOther.surface = .ok () ∧ ¬HostBuilds eachOther.surface := by
  refine ⟨rfl, ?_, ?_⟩
  · rw [eachOther_surface]
    rfl
  · rintro ⟨made, steps, all⟩
    obtain ⟨rank, -, built⟩ := steps.ranked
    have none : ∀ behavior, ¬Injected eachOther.surface behavior := by
      rintro behavior ⟨surface, among, -, there⟩
      rw [eachOther_surface, List.mem_singleton] at among
      rw [among] at there
      cases there
    have falls : ∀ behavior ∈ made, ∃ requires, Bound eachOther.surface behavior requires ∧
        ∀ needed ∈ requires, rank needed < rank behavior := by
      intro behavior member
      obtain ⟨requires, bound, ready⟩ := (built behavior member).resolve_left (none behavior)
      exact ⟨requires, bound, fun needed among => (ready needed among).2⟩
    have askedA : (⟨['m'], ['a']⟩ : Requirement) ∈ made := all _ (by rw [eachOther_surface]; decide)
    have askedB : (⟨['m'], ['b']⟩ : Requirement) ∈ made := all _ (by rw [eachOther_surface]; decide)
    obtain ⟨_, boundA, lessA⟩ := falls _ askedA
    obtain ⟨_, boundB, lessB⟩ := falls _ askedB
    have ab : rank ⟨['m'], ['b']⟩ < rank ⟨['m'], ['a']⟩ := by
      rcases eachOther_bound boundA with ⟨-, rfl⟩ | ⟨same, -⟩
      · exact lessA _ (by simp)
      · simp at same
    have ba : rank ⟨['m'], ['a']⟩ < rank ⟨['m'], ['b']⟩ := by
      rcases eachOther_bound boundB with ⟨same, -⟩ | ⟨-, rfl⟩
      · simp at same
      · exact lessB _ (by simp)
    omega

end SoutherNative.Constructing
