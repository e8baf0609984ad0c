import SoutherNative.Reading
import SoutherNative.HeldAlike

set_option autoImplicit false

/-!
# Compositions

A composition's stages held against the targets they name, the routing they are lowered to, and what
a run of it hands each stage and answers.
-/
namespace SoutherNative.Composing
open Transport Values Restating Typing Widening Reading

/-- A behavior as whoever calls it sees it. -/
structure Target where
  takes : List Ty
  answers : Ty

inductive Routing
  | always
  | onCases (accepted : Cases)

structure Stage where
  behavior : String
  routing : Routing

/-- A type owed to stand as another, and what says it does. -/
structure Owing where
  what : String
  actual : Ty
  expected : Ty

abbrev Targets := String → Option Target

def Targets.named (targets : Targets) (declared : String) : Lowered Target :=
  match targets declared with
  | some target => .ok target
  | none => .error s!"{declared}, which no target names"

def typesSpelt (types : List Ty) : String := String.intercalate ", " (types.map Ty.spelt)

/-- `Cases::one_or_more`: these cases, where there is one. -/
def oneOrMore (cases : List Case) : Option Cases :=
  if h : cases = [] then none else some ⟨cases, h⟩

section Refusals

def testsForASum (what key : String) : String :=
  s!"{what} tests for {key}, which is a sum, where the checker answers the cases a sum " ++
    "descends to: the two halves disagree"

def composingNothing (name : String) : String := s!"{name} is a composition composing nothing"

def firstRouted (name : String) : String :=
  s!"{name}'s first stage is routed rather than always applied: the first stage of a " ++
    "composition takes the composition's own arguments, and nothing is routed into it"

def firstTakes (name behavior : String) (takes leads : List Ty) : String :=
  s!"{name} takes {typesSpelt takes} and its first stage {behavior} takes {typesSpelt leads}: " ++
    "a composition takes whatever its first stage takes, and the two halves disagree about what " ++
    "that is"

def takesOne (name behavior : String) (takes : List Ty) : String :=
  s!"{name}'s stage {behavior} takes {typesSpelt takes}: a stage after the first takes one value"

/-- What lowering a stage comes to where `Coherent` did not hold it to take one value, which ends
    the process. -/
def heldToTakeOne : String := "`Coherent` held every stage after the first to take one value"

def heldToCompose : String := "`Coherent` held every composition to compose something"

def routedOtherwise (name behavior : String) (routed : Bool) (running : Ty) : String :=
  let how := if routed then "routed on the cases of" else "handed whole"
  s!"{name}'s stage {behavior} is {how} {running.spelt}, and what runs is offered by its cases " ++
    "exactly where it is a declared type or a union: the two halves disagree"

def offeredNone (name behavior : String) (running : Ty) : String :=
  s!"{name}'s stage {behavior} is offered cases of {running.spelt}, which has none"

def notAValue (owing : Owing) : String :=
  s!"{owing.what}: {owing.actual.spelt} is not a value of {owing.expected.spelt}, and the " ++
    "checker holds it to be one: the two halves disagree"

end Refusals

variable (declared : Declared)

def isSum : Case → Bool
  | .declared key =>
    match declared.laid key with
    | .sum _ => true
    | _ => false
  | _ => false

def leaves (what : String) (cases : Cases) : Lowered Unit :=
  match cases.cases.find? (isSum declared) with
  | some case => .error (testsForASum what case.spelt)
  | none => .ok ()

def onCasesOwes (name behavior : String) (running taken answers : Ty) (accepted : Cases) :
    Lowered (List Owing) :=
  (leaves declared s!"{name}'s stage {behavior}" accepted).bind fun _ =>
    match declared.casesOf running with
    | none => .error (offeredNone name behavior running)
    | some runningCases =>
      let offered := Ty.union accepted
      let leaving := runningCases.filter (· ∉ declared.leavesOf accepted.cases)
      .ok ([⟨s!"{name}'s stage {behavior} accepts cases of what runs", offered, running⟩,
        ⟨s!"{name} hands its stage {behavior} the cases it accepts", offered, taken⟩] ++
        match oneOrMore leaving with
        | some leaving =>
          [⟨s!"what leaves {name} at its stage {behavior} is what it answers", .union leaving,
            answers⟩]
        | none => [])

def stageOwes (name : String) (running taken answers : Ty) (stage : Stage) : Lowered (List Owing) :=
  let routed := match stage.routing with
    | .always => false
    | .onCases _ => true
  if routed ≠ running.saysItsCase then
    .error (routedOtherwise name stage.behavior routed running)
  else
    match stage.routing with
    | .always =>
      .ok [⟨s!"{name} hands what runs to its stage {stage.behavior}", running, taken⟩]
    | .onCases accepted => onCasesOwes declared name stage.behavior running taken answers accepted

/-- The stages after the first, where `running` is what runs at the first of them. -/
def composesFrom (name : String) (targets : Targets) (answers : Ty) :
    Ty → List Stage → Lowered (List Owing)
  | running, [] => .ok [⟨s!"what {name}'s last stage answers is what it answers", running, answers⟩]
  | running, stage :: rest =>
    (targets.named stage.behavior).bind fun reached =>
      match reached.takes with
      | [taken] =>
        (stageOwes declared name running taken answers stage).bind fun owes =>
          (composesFrom name targets answers reached.answers rest).map (owes ++ ·)
      | takes => .error (takesOne name stage.behavior takes)

def composes (name : String) (target : Target) (stages : List Stage) (targets : Targets) :
    Lowered (List Owing) :=
  match stages with
  | [] => .error (composingNothing name)
  | first :: rest =>
    match first.routing with
    | .onCases _ => .error (firstRouted name)
    | .always =>
      (targets.named first.behavior).bind fun leads =>
        if leads.takes ≠ target.takes then
          .error (firstTakes name first.behavior target.takes leads.takes)
        else composesFrom declared name targets target.answers leads.answers rest

/-- `Owed::settle`: every relation owed holds. -/
def settle (owed : List Owing) : Lowered Unit :=
  match owed.find? (fun owing => !declared.fits owing.actual owing.expected) with
  | some owing => .error (notAValue owing)
  | none => .ok ()

section Lowering

variable {R Key : Type} [LinearOrder Key] (lowering : Lowerings R Key)

structure Handing (R : Type) where
  behavior : String
  arguments : List (Val R)

/-- A run of a composition: what it handed its stages, in order, and what it came to. -/
structure Ran (R : Type) where
  handed : List (Handing R)
  came : Called R

abbrev Behaviors (R : Type) := String → List (Val R) → Called R

/-- `call_behavior` in a composition: a stage's answer goes on, and another status ends the run. -/
def through (behaviors : Behaviors R) (behavior : String) (arguments : List (Val R))
    (goesOn : Val R → Ran R) : Ran R :=
  match behaviors behavior arguments with
  | .answered value => ⟨⟨behavior, arguments⟩ :: (goesOn value).handed, (goesOn value).came⟩
  | .ended status => ⟨[⟨behavior, arguments⟩], .ended status⟩

/-- `is_one_of_cases`: whether the token a value carries is that of one of the cases. -/
def isOneOfCases (value : Val R) (cases : Cases) : Bool :=
  match value with
  | .tagged which _ => cases.cases.any (fun case => lowering.token which = lowering.token case)
  | _ => false

/-- The routing from the first stage after those run, where what runs is a value of `runningIs`. -/
def composedFrom (targets : Targets) (answers : Ty) (behaviors : Behaviors R) :
    Ty → List Stage → Lowered (Val R → Ran R)
  | runningIs, [] =>
    (restatement runningIs answers).map fun answering running =>
      ⟨[], .answered (carriedOut lowering answering runningIs answers running)⟩
  | runningIs, stage :: rest =>
    (targets.named stage.behavior).bind fun reached =>
      match reached.takes with
      | [taken] =>
        match stage.routing with
        | .always =>
          (restatement runningIs taken).bind fun offering =>
            (composedFrom targets answers behaviors reached.answers rest).map fun goesOn running =>
              through behaviors stage.behavior [carriedOut lowering offering runningIs taken running]
                goesOn
        | .onCases accepted =>
          (restatement runningIs answers).bind fun leaving =>
            (restatement runningIs taken).bind fun offering =>
              (composedFrom targets answers behaviors reached.answers rest).map
                fun goesOn running =>
                  if isOneOfCases lowering running accepted then
                    through behaviors stage.behavior
                      [carriedOut lowering offering runningIs taken running] goesOn
                  else ⟨[], .answered (carriedOut lowering leaving runningIs answers running)⟩
      | _ => .error heldToTakeOne

/-- `define_composed`: the first stage called with the composition's own arguments, and what it
    answers routed through the rest. -/
def composed (target : Target) (stages : List Stage) (targets : Targets) (behaviors : Behaviors R) :
    Lowered (List (Val R) → Ran R) :=
  match stages with
  | [] => .error heldToCompose
  | first :: rest =>
    (targets.named first.behavior).bind fun leads =>
      (composedFrom lowering targets target.answers behaviors leads.answers rest).map
        fun goesOn arguments => through behaviors first.behavior arguments goesOn

end Lowering

section Routing

variable {R Key : Type} [LinearOrder Key] {lowering : Lowerings R Key}

/-- `value`, of the narrower type, stands as `value'`, of the wider, and is read as it was. -/
structure StandsAs (lowering : Lowerings R Key) (narrow wide : Ty) (value value' : Val R) : Prop where
  held : HasType lowering narrow value
  typed : HasType lowering wide value'
  reads : ∀ meaning, Reads lowering.declared wide value' meaning ↔
    Reads lowering.declared narrow value meaning

def IsOneOf (cases : Cases) (value : Val R) : Prop :=
  ∃ which slots, value = .tagged which slots ∧ which ∈ cases.cases

def Accepts : Routing → Val R → Prop
  | .always, _ => True
  | .onCases accepted, value => IsOneOf accepted value

/-- What a composition does with a value that runs at the first of these stages: what it hands the
    stages, in order, and what it comes to. -/
inductive Goes (lowering : Lowerings R Key) (targets : Targets) (answers : Ty)
    (behaviors : Behaviors R) : Ty → Val R → List Stage → List (Handing R) → Called R → Prop
  | answers {running : Ty} {value value' : Val R} : StandsAs lowering running answers value value' →
      Goes lowering targets answers behaviors running value [] [] (.answered value')
  | left {running : Ty} {value value' : Val R} {stage : Stage} {rest : List Stage} :
      ¬ Accepts stage.routing value → StandsAs lowering running answers value value' →
      Goes lowering targets answers behaviors running value (stage :: rest) [] (.answered value')
  | goesOn {running taken : Ty} {value value' next : Val R} {stage : Stage} {rest : List Stage}
      {reached : Target} {handed : List (Handing R)} {came : Called R} :
      Accepts stage.routing value → targets stage.behavior = some reached → reached.takes = [taken] →
      StandsAs lowering running taken value value' →
      behaviors stage.behavior [value'] = .answered next →
      Goes lowering targets answers behaviors reached.answers next rest handed came →
      Goes lowering targets answers behaviors running value (stage :: rest)
        (⟨stage.behavior, [value']⟩ :: handed) came
  | ends {running taken : Ty} {value value' : Val R} {stage : Stage} {rest : List Stage}
      {reached : Target} {status : {status : ℤ // status ≠ ANSWERED}} :
      Accepts stage.routing value → targets stage.behavior = some reached → reached.takes = [taken] →
      StandsAs lowering running taken value value' →
      behaviors stage.behavior [value'] = .ended status →
      Goes lowering targets answers behaviors running value (stage :: rest)
        [⟨stage.behavior, [value']⟩] (.ended status)

def Answering (lowering : Lowerings R Key) (targets : Targets) (behaviors : Behaviors R) : Prop :=
  ∀ behavior reached arguments value, targets behavior = some reached →
    HasTypes lowering reached.takes arguments → behaviors behavior arguments = .answered value →
    HasType lowering reached.answers value

theorem reached_leaf {declared : Declared} {members : List Case} {leaf : Case}
    (h : leaf ∈ declared.leavesOf members) : declared.reached leaf = [leaf] := by
  obtain ⟨member, -, hreached⟩ := (declared.mem_leavesOf members leaf).mp h
  cases member with
  | declared key =>
    simp only [Declared.reached] at hreached
    split at hreached
    · next cases hlaid => exact declared.reached_case hlaid hreached
    · rw [List.mem_singleton.mp hreached]
      simp only [Declared.reached]
  | primitive p =>
    rw [List.mem_singleton.mp hreached]
    rfl
  | language case =>
    rw [List.mem_singleton.mp hreached]
    rfl

theorem reached_of_not_sum {declared : Declared} {case : Case} (h : isSum declared case = false) :
    declared.reached case = [case] := by
  cases case with
  | declared key =>
    simp only [isSum] at h
    simp only [Declared.reached]
    split
    · next cases hlaid => simp [hlaid] at h
    · rfl
  | primitive p => rfl
  | language case => rfl

theorem mem_leavesOf_leaves {declared : Declared} {members : List Case}
    (h : ∀ member ∈ members, declared.reached member = [member]) (leaf : Case) :
    leaf ∈ declared.leavesOf members ↔ leaf ∈ members := by
  rw [Declared.mem_leavesOf]
  constructor
  · rintro ⟨member, hmember, hleaf⟩
    rw [h member hmember, List.mem_singleton] at hleaf
    rwa [hleaf]
  · intro hleaf
    exact ⟨leaf, hleaf, by rw [h leaf hleaf, List.mem_singleton]⟩

theorem of_leaves {declared : Declared} {what : String} {accepted : Cases}
    (h : leaves declared what accepted = .ok ()) :
    ∀ case ∈ accepted.cases, declared.reached case = [case] := by
  intro case hcase
  rw [leaves] at h
  split at h
  · cases h
  · next hnone =>
    refine reached_of_not_sum ?_
    have := List.find?_eq_none.mp hnone case hcase
    rwa [Bool.not_eq_true] at this

theorem isOneOfCases_iff {cases : Cases} {which : Case} {slots : List (Val R)} :
    isOneOfCases lowering (.tagged which slots) cases = true ↔ which ∈ cases.cases := by
  simp [isOneOfCases, lowering.token_injective.eq_iff]

theorem standsAs_of_fits {narrow wide : Ty} {plan : Restatement} {value : Val R}
    (hfits : lowering.declared.fits narrow wide = true) (h : restatement narrow wide = .ok plan)
    (hvalue : HasType lowering narrow value) :
    StandsAs lowering narrow wide value (carriedOut lowering plan narrow wide value) :=
  ⟨hvalue, (carries hfits h).typed value hvalue, readsAs_of_widens (widens_of hfits h) value hvalue⟩

/-- What holding a value of a type that says its case as another type takes: nothing, or reading a
    primitive out. -/
theorem restatement_cased {narrow wide : Ty} {plan : Restatement}
    (hcased : narrow.saysItsCase = true) (h : restatement narrow wide = .ok plan) :
    wide.saysItsCase = true ∧ plan = .same ∨ ∃ p, wide = .prim p ∧ plan = .uncarry p := by
  unfold restatement at h
  split_ifs at h with hsame
  · cases h
    rw [Bool.or_eq_true, decide_eq_true_eq, Bool.and_eq_true] at hsame
    rcases hsame with rfl | hboth
    · exact .inl ⟨hcased, rfl⟩
    · exact .inl ⟨hboth.2, rfl⟩
  · split at h
    all_goals first
      | cases hcased
      | skip
    unfold restatementApart at h
    split at h
    · cases hcased
    · cases h
    · rw [if_pos hcased] at h
      cases h
      exact .inr ⟨_, rfl, rfl⟩
    · cases h
    · cases h

/-- The whole of what runs is restated, and the value is one of the cases the checker held to fit. -/
theorem standsAs_of_case {running wide : Ty} {plan : Restatement} {members : Cases} {which : Case}
    {slots : List (Val R)} (hcased : running.saysItsCase = true)
    (hmembers : ∀ member ∈ members.cases, lowering.declared.reached member = [member])
    (hwhich : which ∈ members.cases)
    (hfits : lowering.declared.fits (.union members) wide = true)
    (h : restatement running wide = .ok plan)
    (hvalue : HasType lowering running (.tagged which slots)) :
    StandsAs lowering running wide (.tagged which slots)
      (carriedOut lowering plan running wide (.tagged which slots)) := by
  have hunion : (Ty.union members).saysItsCase = true := rfl
  have htyped : HasType lowering (.union members) (.tagged which slots) := by
    obtain ⟨_, _, _, htagged, -, -, hslots⟩ := hvalue.tagged_inv hcased
    cases htagged
    obtain ⟨hlen, hslots⟩ := hasTypes_iff.mp hslots
    exact .tagged hunion rfl ((mem_leavesOf_leaves hmembers which).mpr hwhich) hlen hslots
  have hplan : restatement (.union members) wide = .ok plan ∧
      carriedOut lowering plan running wide (.tagged which slots) =
        carriedOut lowering plan (.union members) wide (.tagged which slots) := by
    rcases restatement_cased hcased h with ⟨hwide, rfl⟩ | ⟨p, rfl, rfl⟩
    · refine ⟨?_, by rw [carriedOut_same, carriedOut_same]⟩
      unfold restatement
      rw [if_pos (by simp [hunion, hwide])]
    · refine ⟨?_, ?_⟩
      · unfold restatement
        rfl
      · cases slots with
        | nil => simp [carriedOut]
        | cons slot slots => rw [carriedOut, carriedOut]
  rw [hplan.2]
  have hstands := standsAs_of_fits hfits hplan.1 htyped
  refine ⟨hvalue, hstands.typed, fun meaning => (hstands.reads meaning).trans ?_⟩
  exact ⟨reads_tagged hcased, reads_tagged hunion⟩

section Run

variable {targets : Targets} {answers : Ty} {behaviors : Behaviors R}

theorem of_named {declared : String} {target : Target} (h : targets.named declared = .ok target) :
    targets declared = some target := by
  unfold Targets.named at h
  split at h
  · next hfound =>
    cases h
    exact hfound
  · cases h

theorem of_settle {declared : Declared} {owed : List Owing} (h : settle declared owed = .ok ()) :
    ∀ owing ∈ owed, declared.fits owing.actual owing.expected = true := by
  intro owing howing
  rw [settle] at h
  split at h
  · cases h
  · next hnone => simpa using List.find?_eq_none.mp hnone owing howing

def Settled (declared : Declared) (owed : List Owing) : Prop :=
  ∀ owing ∈ owed, declared.fits owing.actual owing.expected = true

/-- What is owed of a stage offered cases, each of the cases being one the stage takes, and each of
    those that leave one the composition answers. -/
structure OnCases (declared : Declared) (running taken answers : Ty) (accepted : Cases) : Prop where
  leaves : ∀ case ∈ accepted.cases, declared.reached case = [case]
  offered : declared.fits (.union accepted) taken = true
  left : ∀ runningCases, declared.casesOf running = some runningCases →
    ∀ which ∈ runningCases, which ∉ accepted.cases → ∃ leaving : Cases, which ∈ leaving.cases ∧
      (∀ case ∈ leaving.cases, declared.reached case = [case]) ∧
      declared.fits (.union leaving) answers = true

theorem casesOf_leaf {declared : Declared} {ty : Ty} {cases : List Case}
    (h : declared.casesOf ty = some cases) {which : Case} (hwhich : which ∈ cases) :
    declared.reached which = [which] := by
  cases ty with
  | prim p =>
    cases h
    rw [List.mem_singleton.mp hwhich]
    rfl
  | ref named =>
    cases h
    exact reached_leaf hwhich
  | union members =>
    cases h
    exact reached_leaf hwhich
  | _ => cases h

theorem onCases_of {name behavior : String} {running taken answers : Ty} {accepted : Cases}
    {declared : Declared} {owes : List Owing}
    (h : onCasesOwes declared name behavior running taken answers accepted = .ok owes)
    (hsettled : Settled declared owes) : OnCases declared running taken answers accepted := by
  unfold onCasesOwes at h
  obtain ⟨⟨⟩, hleaves, h⟩ := of_bind h
  have hleaves := of_leaves hleaves
  cases hcases : declared.casesOf running with
  | none =>
    rw [hcases] at h
    cases h
  | some runningCases =>
    rw [hcases] at h
    cases h
    refine ⟨hleaves, hsettled ⟨_, .union accepted, taken⟩ (List.mem_append_left _
      (List.mem_cons_of_mem _ List.mem_cons_self)), ?_⟩
    intro cases' hcases' which hwhich hnot
    rw [hcases, Option.some.injEq] at hcases'
    subst hcases'
    have hmem : which ∈ runningCases.filter (· ∉ declared.leavesOf accepted.cases) := by
      rw [List.mem_filter, decide_eq_true_eq, mem_leavesOf_leaves hleaves]
      exact ⟨hwhich, hnot⟩
    have hne : runningCases.filter (· ∉ declared.leavesOf accepted.cases) ≠ [] :=
      List.ne_nil_of_mem hmem
    refine ⟨⟨_, hne⟩, hmem, fun case hcase => ?_, ?_⟩
    · exact casesOf_leaf hcases (List.mem_of_mem_filter hcase)
    · refine hsettled ⟨s!"what leaves {name} at its stage {behavior} is what it answers",
        .union ⟨_, hne⟩, answers⟩ (List.mem_append_right _ ?_)
      rw [oneOrMore, dif_neg hne]
      exact List.mem_cons_self

theorem settled_append {declared : Declared} {owed owed' : List Owing}
    (h : Settled declared (owed ++ owed')) : Settled declared owed ∧ Settled declared owed' :=
  ⟨fun owing howing => h owing (List.mem_append_left _ howing),
    fun owing howing => h owing (List.mem_append_right _ howing)⟩

theorem goes_through (hanswering : Answering lowering targets behaviors) {running taken : Ty}
    {value value' : Val R} {stage : Stage} {rest : List Stage} {reached : Target}
    {goesOn : Val R → Ran R} (haccepts : Accepts stage.routing value)
    (hreached : targets stage.behavior = some reached) (htakes : reached.takes = [taken])
    (hstands : StandsAs lowering running taken value value')
    (hrest : ∀ next, HasType lowering reached.answers next →
      Goes lowering targets answers behaviors reached.answers next rest (goesOn next).handed
        (goesOn next).came) :
    Goes lowering targets answers behaviors running value (stage :: rest)
      (through behaviors stage.behavior [value'] goesOn).handed
      (through behaviors stage.behavior [value'] goesOn).came := by
  unfold through
  cases hcalled : behaviors stage.behavior [value'] with
  | answered next =>
    refine .goesOn haccepts hreached htakes hstands hcalled (hrest next ?_)
    refine hanswering _ _ _ _ hreached ?_ hcalled
    rw [htakes]
    exact .cons hstands.typed .nil
  | ended status => exact .ends haccepts hreached htakes hstands hcalled

theorem composedFrom_goes (hanswering : Answering lowering targets behaviors) {name : String}
    {running : Ty} {stages : List Stage} {owed : List Owing} {run : Val R → Ran R}
    (hcoherent : composesFrom lowering.declared name targets answers running stages = .ok owed)
    (hsettled : Settled lowering.declared owed)
    (hlowered : composedFrom lowering targets answers behaviors running stages = .ok run)
    {value : Val R} (hvalue : HasType lowering running value) :
    Goes lowering targets answers behaviors running value stages (run value).handed
      (run value).came := by
  induction stages generalizing running owed run value with
  | nil =>
    cases hcoherent
    obtain ⟨plan, hplan, rfl⟩ := of_map hlowered
    exact .answers (standsAs_of_fits (hsettled ⟨_, running, answers⟩ List.mem_cons_self) hplan hvalue)
  | cons stage rest ih =>
    rw [composesFrom] at hcoherent
    rw [composedFrom] at hlowered
    obtain ⟨reached, hreached, hcoherent⟩ := of_bind hcoherent
    obtain ⟨reached', hreached', hlowered⟩ := of_bind hlowered
    rw [hreached, Except.ok.injEq] at hreached'
    subst hreached'
    have hreached := of_named hreached
    split at hcoherent
    · next taken htakes =>
      obtain ⟨owes, howes, hcoherent⟩ := of_bind hcoherent
      obtain ⟨owed', howed', rfl⟩ := of_map hcoherent
      obtain ⟨hstage, hlater⟩ := settled_append hsettled
      rw [htakes] at hlowered
      unfold stageOwes at howes
      cases hrouting : stage.routing with
      | always =>
        simp only [hrouting] at howes hlowered
        split_ifs at howes
        cases howes
        obtain ⟨offering, hoffering, hlowered⟩ := of_bind hlowered
        obtain ⟨goesOn, hgoesOn, rfl⟩ := of_map hlowered
        have hstands := standsAs_of_fits (hstage ⟨_, running, taken⟩ List.mem_cons_self) hoffering hvalue
        exact goes_through hanswering (by rw [hrouting]; trivial) hreached htakes hstands
          fun next hnext => ih howed' hlater hgoesOn hnext
      | onCases accepted =>
        simp only [hrouting] at howes hlowered
        split_ifs at howes with hrouted
        rw [ne_eq, not_not] at hrouted
        obtain ⟨leaving, hleaving, hlowered⟩ := of_bind hlowered
        obtain ⟨offering, hoffering, hlowered⟩ := of_bind hlowered
        obtain ⟨goesOn, hgoesOn, rfl⟩ := of_map hlowered
        have honCases := onCases_of howes hstage
        have hcased : running.saysItsCase = true := hrouted.symm
        obtain ⟨cases', which, slots, rfl, hcases, hwhich, -⟩ := hvalue.tagged_inv hcased
        simp only
        by_cases haccepted : which ∈ accepted.cases
        · rw [if_pos (isOneOfCases_iff.mpr haccepted)]
          refine goes_through hanswering ?_ hreached htakes
            (standsAs_of_case hcased honCases.leaves haccepted honCases.offered hoffering hvalue)
            fun next hnext => ih howed' hlater hgoesOn hnext
          rw [hrouting]
          exact ⟨which, slots, rfl, haccepted⟩
        · rw [if_neg fun h => haccepted (isOneOfCases_iff.mp h)]
          obtain ⟨left, hmem, hleaves, hfits⟩ := honCases.left _ hcases which hwhich haccepted
          refine .left ?_ (standsAs_of_case hcased hleaves hmem hfits hleaving hvalue)
          rw [hrouting]
          rintro ⟨_, _, htagged, hmem⟩
          cases htagged
          exact haccepted hmem
    · cases hcoherent

/-- What a run that ends without an answer comes to is what the last stage it called came to, and
    what it answers is a value of what the composition answers. -/
theorem Goes.came {running : Ty} {value : Val R} {stages : List Stage} {handed : List (Handing R)}
    {came : Called R} (h : Goes lowering targets answers behaviors running value stages handed came) :
    (∃ answer, came = .answered answer ∧ HasType lowering answers answer) ∨
      ∃ status before last, came = .ended status ∧ handed = before ++ [last] ∧
        behaviors last.behavior last.arguments = .ended status := by
  induction h with
  | answers hstands => exact .inl ⟨_, rfl, hstands.typed⟩
  | left _ hstands => exact .inl ⟨_, rfl, hstands.typed⟩
  | @goesOn _ _ _ _ _ stage _ _ _ _ _ _ _ _ _ _ ih =>
    rcases ih with hanswer | ⟨status, before, last, hcame, hhanded, hlast⟩
    · exact .inl hanswer
    · exact .inr ⟨status, _ :: before, last, hcame, by rw [hhanded, List.cons_append], hlast⟩
  | ends _ _ _ _ hcalled => exact .inr ⟨_, [], _, rfl, rfl, hcalled⟩

end Run

/-- A composition `Coherent` accepted, run over behaviors that answer values of what their targets
    answer: its first stage is handed the composition's own arguments, and what it answers goes
    through the rest as `Goes` says. -/
theorem composed_goes (lowering : Lowerings R Key) {name : String} {target : Target}
    {stages : List Stage} {targets : Targets} {behaviors : Behaviors R} {owed : List Owing}
    {run : List (Val R) → Ran R}
    (hcoherent : composes lowering.declared name target stages targets = .ok owed)
    (hsettled : settle lowering.declared owed = .ok ())
    (hlowered : composed lowering target stages targets behaviors = .ok run)
    (hanswering : Answering lowering targets behaviors) {arguments : List (Val R)}
    (harguments : HasTypes lowering target.takes arguments) :
    (∃ first rest leads, stages = first :: rest ∧ targets first.behavior = some leads ∧
      leads.takes = target.takes ∧
      ((∃ status, behaviors first.behavior arguments = .ended status ∧
          run arguments = ⟨[⟨first.behavior, arguments⟩], .ended status⟩) ∨
        ∃ value handed came, behaviors first.behavior arguments = .answered value ∧
          HasType lowering leads.answers value ∧
          run arguments = ⟨⟨first.behavior, arguments⟩ :: handed, came⟩ ∧
          Goes lowering targets target.answers behaviors leads.answers value rest handed came)) ∧
    ((∃ answer, (run arguments).came = .answered answer ∧
        HasType lowering target.answers answer) ∨
      ∃ status before last, (run arguments).came = .ended status ∧
        (run arguments).handed = before ++ [last] ∧
        behaviors last.behavior last.arguments = .ended status) := by
  cases stages with
  | nil => cases hcoherent
  | cons first rest =>
    rw [composes] at hcoherent
    rw [composed] at hlowered
    split at hcoherent
    · cases hcoherent
    · obtain ⟨leads, hleads, hcoherent⟩ := of_bind hcoherent
      obtain ⟨leads', hleads', hlowered⟩ := of_bind hlowered
      rw [hleads, Except.ok.injEq] at hleads'
      subst hleads'
      obtain ⟨goesOn, hgoesOn, rfl⟩ := of_map hlowered
      have hleads := of_named hleads
      split_ifs at hcoherent with htakes
      rw [not_not] at htakes
      cases hcalled : behaviors first.behavior arguments with
      | ended status =>
        have hrun : through behaviors first.behavior arguments goesOn =
            ⟨[⟨first.behavior, arguments⟩], .ended status⟩ := by
          rw [through, hcalled]
        beta_reduce
        rw [hrun]
        exact ⟨⟨first, rest, leads, rfl, hleads, htakes, .inl ⟨status, hcalled, rfl⟩⟩,
          .inr ⟨status, [], _, rfl, rfl, hcalled⟩⟩
      | answered value =>
        have hvalue : HasType lowering leads.answers value :=
          hanswering _ _ _ _ hleads (by rwa [htakes]) hcalled
        have hgoes := composedFrom_goes hanswering hcoherent (of_settle hsettled) hgoesOn hvalue
        have hrun : through behaviors first.behavior arguments goesOn =
            ⟨⟨first.behavior, arguments⟩ :: (goesOn value).handed, (goesOn value).came⟩ := by
          rw [through, hcalled]
        beta_reduce
        rw [hrun]
        refine ⟨⟨first, rest, leads, rfl, hleads, htakes,
          .inr ⟨value, _, _, hcalled, hvalue, rfl, hgoes⟩⟩, ?_⟩
        rcases hgoes.came with hanswer | ⟨status, before, last, hcame, hhanded, hlast⟩
        · exact .inl hanswer
        · exact .inr ⟨status, _ :: before, last, hcame, by rw [hhanded, List.cons_append], hlast⟩

end Routing

section Figures

open ValueCollection HeldAlike

def drawing : Targets
  | "draw" => some ⟨[], figure⟩
  | "square" => some ⟨[circle], square⟩
  | _ => none

def squaring : List Stage :=
  [⟨"draw", .always⟩, ⟨"square", .onCases ⟨[.declared "A"], by simp⟩⟩]

def drawn : Behaviors ℕ
  | "draw", _ => .answered (.tagged (.declared "A") [])
  | _, _ => .answered (.tagged (.declared "B") [])

theorem units_fits {a b : Ty} {leaves leaves' : List Case} (hcased : a.saysItsCase = true)
    (ha : units.casesOf a = some leaves) (hb : units.casesOf b = some leaves')
    (h : leaves ⊆ leaves') : units.fits a b = true := by
  unfold Declared.fits
  split_ifs
  · rfl
  · split
    all_goals first
      | cases hcased
      | skip
    rw [ha, hb]
    exact List.all_eq_true.mpr fun case hcase => decide_eq_true (h hcase)

theorem restatement_cases {a b : Ty} (ha : a.saysItsCase = true) (hb : b.saysItsCase = true) :
    restatement a b = .ok .same := by
  unfold restatement
  rw [if_pos (by simp [ha, hb])]

theorem hasType_square : HasType (Lowerings.plain units) square (.tagged (.declared "B") []) :=
  .tagged rfl rfl ((leavesOf_units _ _).mpr List.mem_cons_self) rfl fun slot hslot => by cases hslot

theorem drawn_answering : Answering (Lowerings.plain units) drawing drawn := by
  intro behavior reached arguments value hreached _ hcalled
  unfold drawing at hreached
  split at hreached
  · cases hreached
    cases hcalled
    exact .tagged rfl rfl ((leavesOf_units _ _).mpr List.mem_cons_self) rfl
      fun slot hslot => by cases hslot
  · cases hreached
    cases hcalled
    exact hasType_square
  · cases hreached

def aCircle : Cases := ⟨[.declared "A"], by simp⟩

def aSquare : Cases := ⟨[.declared "B"], by simp⟩

def squaringOwes (name behavior : String) : List Owing :=
  [⟨s!"{name}'s stage {behavior} accepts cases of what runs", .union aCircle, figure⟩,
    ⟨s!"{name} hands its stage {behavior} the cases it accepts", .union aCircle, circle⟩,
    ⟨s!"what leaves {name} at its stage {behavior} is what it answers", .union aSquare, figure⟩,
    ⟨s!"what {name}'s last stage answers is what it answers", square, figure⟩]

theorem composes_squaring (name : String) :
    composes units name ⟨[], figure⟩ squaring drawing = .ok (squaringOwes name "square") := rfl

theorem settle_squaring (name behavior : String) :
    settle units (squaringOwes name behavior) = .ok () := by
  have hcircle : units.fits (.union aCircle) figure = true :=
    units_fits rfl rfl rfl (by decide)
  have htaken : units.fits (.union aCircle) circle = true :=
    units_fits rfl rfl rfl (by decide)
  have hsquare : units.fits (.union aSquare) figure = true :=
    units_fits rfl rfl rfl (by decide)
  have hlast : units.fits square figure = true :=
    units_fits rfl rfl rfl (by decide)
  simp [settle, squaringOwes, hcircle, htaken, hsquare, hlast]

/-- A figure drawn and squared: a circle drawn is handed on, and the square made of it answered. -/
theorem composed_goes_squaring : ∃ run,
    composed (Lowerings.plain units) ⟨[], figure⟩ squaring drawing drawn = .ok run ∧
      (run []).came = .answered (.tagged (.declared "B") []) ∧
      HasType (Lowerings.plain units) figure (.tagged (.declared "B") []) := by
  obtain ⟨run, hrun, hcame⟩ : ∃ run,
      composed (Lowerings.plain units) ⟨[], figure⟩ squaring drawing drawn = .ok run ∧
        (run []).came = .answered (.tagged (.declared "B") []) := by
    have hleaving : restatement figure figure = .ok .same := restatement_cases rfl rfl
    have hoffering : restatement figure circle = .ok .same := restatement_cases rfl rfl
    have hanswering : restatement square figure = .ok .same := restatement_cases rfl rfl
    refine ⟨_, by simp [composed, composedFrom, squaring, drawing, Targets.named, Except.bind,
      Except.map, hleaving, hoffering, hanswering]; rfl, ?_⟩
    simp [through, drawn, isOneOfCases, carriedOut_same]
  refine ⟨run, hrun, hcame, ?_⟩
  have hgoes := (composed_goes (Lowerings.plain units) (composes_squaring "squared")
    (settle_squaring _ _) hrun drawn_answering .nil).2
  rw [hcame] at hgoes
  rcases hgoes with ⟨answer, hanswer, htyped⟩ | ⟨status, _, _, hended, -⟩
  · cases hanswer
    exact htyped
  · cases hended

end Figures

end SoutherNative.Composing
