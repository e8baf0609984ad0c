import Mathlib
import SoutherNative.Nodes
import SoutherNative.Widening

set_option autoImplicit false

/-!
# What a closure carries

A body is walked once for the function values it makes, and each is planned with what it reads from
outside itself. What a walk builds a collection with is not one of them: it runs where the walk
stands, and reads what it reads there.
-/
namespace SoutherNative.Closures
open Transport Nodes

structure Around where
  binding : ℕ
  binds : Ty
  value : Node

structure Step where
  around : List Around
  parameters : List ℕ
  body : Node
  takes : List Ty
  answers : Ty

def Step.written : Node → Option Step
  | .node (.letIn binding binds) _ [value, body] =>
    (Step.written body).map fun step => { step with around := ⟨binding, binds, value⟩ :: step.around }
  | .node (.block _ parameters) (.fn takes answers) [body] =>
    if parameters.length = 2 ∧ takes.length = 2 then some ⟨[], parameters, body, takes, answers⟩
    else none
  | _ => none

def Step.ofWalk (core : Core) (children : List Node) : Option Step :=
  match core with
  | .call (.emitted .buildList) | .call (.emitted .buildMap) => children.head?.bind Step.written
  | _ => none

def boundAt (core : Core) (child : ℕ) : List ℕ :=
  match core with
  | .letIn binding _ => if child = 1 then [binding] else []
  | .attempt _ values binding _ => if child = values then [binding] else []
  | .matchOn arms => match child with
    | 0 => []
    | arm + 1 => ((arms[arm]?.bind Arm.binding).map ArmBinding.number).toList
  | .block _ parameters => parameters
  | _ => []

def stepAt (step : Bool) (core : Core) (ty : Ty) (children : List Node) (child : ℕ) : Bool :=
  match core with
  | .letIn _ _ => step && child == 1
  | .call _ => child == 0 && (Step.ofWalk core children).isSome &&
      (neverLowered core ty children).isEmpty
  | _ => false

def unrunAt (step : Bool) (core : Core) (ty : Ty) (children : List Node) : List ℕ :=
  match core with
  | .block _ _ => if step then [] else neverLowered core ty children
  | _ => neverLowered core ty children

structure Capture where
  binding : ℕ
  ty : Ty

structure Site where
  carrier : String
  parameters : List ℕ
  body : List Node
  takes : List Ty
  answers : Ty
  captures : List Capture
  environment : Option (List String)
  runs : Bool

/-- Every planned site, in the order they were found, by where its block stands, and every site
    number met, where they are held to be met once. -/
structure ClosureSites where
  sites : List (List ℕ × Site)
  numbered : Option (List ℕ)

inductive Refused
  | notFunction (site : ℕ)
  | claimedTwice (site : ℕ)
  | namedTwice (place : List ℕ)
  deriving DecidableEq

/-- What a walk found reached from outside what it walked, in first-reached order. -/
structure Reached where
  bindings : List Capture
  environment : Bool

def Reached.default : Reached := ⟨[], false⟩

def Reached.binding (bound : Finset ℕ) (reached : Reached) (read : Capture) : Reached :=
  if read.binding ∉ bound ∧ read.binding ∉ reached.bindings.map Capture.binding then
    { reached with bindings := reached.bindings ++ [read] }
  else reached

def Reached.all (bound : Finset ℕ) (reached : Reached) (reads : List Capture) : Reached :=
  reads.foldl (Reached.binding bound) reached

structure Planner where
  carrier : String
  environment : List String
  lowered : Bool

structure Walking where
  bound : Finset ℕ
  reached : Reached
  found : ClosureSites

def Walking.carry (walking : Walking) (inner : Reached) (found : ClosureSites) : Walking :=
  let reached := walking.reached.all walking.bound inner.bindings
  { walking with
    reached := { reached with environment := reached.environment || inner.environment }
    found }

def enter (bound : Finset ℕ) : List ℕ → Finset ℕ × List ℕ
  | [] => (bound, [])
  | binding :: rest =>
    let entered := enter (insert binding bound) rest
    (entered.1, if binding ∈ bound then entered.2 else binding :: entered.2)

def leave (bound : Finset ℕ) (added : List ℕ) : Finset ℕ := added.foldl Finset.erase bound

def Planner.handed (planner : Planner) : Core → Bool
  | .call (.behavior declared) => decide (declared ∈ planner.environment)
  | _ => false

def ClosureSites.number (found : ClosureSites) (site : ℕ) : Except Refused ClosureSites :=
  match found.numbered with
  | none => .ok found
  | some numbers =>
    if site ∈ numbers then .error (.claimedTwice site)
    else .ok { found with numbered := some (numbers ++ [site]) }

def ClosureSites.plan (lowered : Bool) (place : List ℕ) (planned : Site) (found : ClosureSites) :
    Except Refused ClosureSites :=
  if lowered then
    if place ∈ found.sites.map Prod.fst then .error (.namedTwice place)
    else .ok { found with sites := found.sites ++ [(place, planned)] }
  else .ok found

def Planner.site (planner : Planner) (parameters : List ℕ) (body : List Node) (ty : Ty)
    (takes : List Ty) (answers : Ty) (reached : Reached) : Site where
  carrier := planner.carrier
  parameters := parameters
  body := body
  takes := takes
  answers := answers
  captures := reached.bindings
  environment := if reached.environment then some planner.environment else none
  runs := !neverRuns ty

mutual

/-- What a node reaches outside what is bound, with every block under it recorded as its own site. A
    block where a walk's step stands is none: what it binds is bound here, as a `let` binds. -/
def walk (planner : Planner) (place : List ℕ) (step : Bool) :
    Node → Walking → Except Refused Walking
  | .node core ty children, walking =>
    let walking := if planner.handed core then
      { walking with reached := { walking.reached with environment := true } } else walking
    let walking := match core with
      | .read binding =>
        { walking with reached := walking.reached.binding walking.bound ⟨binding, ty⟩ }
      | _ => walking
    match core with
    | .block site parameters =>
      if step then
        walkUnder planner place step core ty children (unrunAt step core ty children) 0 children
          walking
      else match ty with
        | .fn takes answers => do
          -- Its own parameters and nothing of the bindings around it. A body that never runs is
          -- walked for the sites in it alone, and reaches nothing.
          let inner ← walkUnder planner place step core ty children
            (unrunAt step core ty children) 0 children
            ⟨∅, .default, walking.found⟩
          let found ← inner.found.number site
          let found ← found.plan planner.lowered place
            (planner.site parameters children ty takes answers inner.reached)
          .ok (walking.carry inner.reached found)
        | _ => .error (.notFunction site)
    | _ => walkUnder planner place step core ty children (unrunAt step core ty children) 0 children
        walking

def walkUnder (planner : Planner) (place : List ℕ) (step : Bool) (core : Core) (ty : Ty)
    (siblings : List Node) (unrun : List ℕ) : ℕ → List Node → Walking → Except Refused Walking
  | _, [], walking => .ok walking
  | child, node :: rest, walking => do
    if child ∈ unrun then
      let inner ← walk { planner with lowered := false } (place ++ [child]) false node
        ⟨∅, .default, walking.found⟩
      walkUnder planner place step core ty siblings unrun (child + 1) rest
        { walking with found := inner.found }
    else
      let entered := enter walking.bound (boundAt core child)
      let inner ← walk planner (place ++ [child]) (stepAt step core ty siblings child) node
        { walking with bound := entered.1 }
      walkUnder planner place step core ty siblings unrun (child + 1) rest
        { inner with bound := leave inner.bound entered.2 }

end

/-- A body that is lowered, where it stands. -/
structure Standing where
  carrier : String
  environment : List String
  node : Node

def walkBodies : ℕ → List Standing → ClosureSites → Except Refused ClosureSites
  | _, [], found => .ok found
  | body, standing :: rest, found => do
    let walked ← walk ⟨standing.carrier, standing.environment, true⟩ [body] false standing.node
      ⟨∅, .default, found⟩
    walkBodies (body + 1) rest walked.found

def ClosureSites.numberedOf (bodies : List Standing) : Except Refused Unit :=
  (walkBodies 0 bodies ⟨[], some []⟩).map fun _ => ()

def ClosureSites.of (bodies : List Standing) : Except Refused ClosureSites :=
  walkBodies 0 bodies ⟨[], none⟩

def ClosureSites.at (found : ClosureSites) (place : List ℕ) : Option (ℕ × Site) :=
  (found.sites.zipIdx.find? fun entry => entry.1.1 = place).map fun entry => (entry.2, entry.1.2)

def without (bindings : List ℕ) (reads : List Capture) : List Capture :=
  reads.filter fun read => read.binding ∉ bindings

def readOf (core : Core) (ty : Ty) : List Capture :=
  match core with
  | .read binding => [⟨binding, ty⟩]
  | _ => []

mutual

def reads (step : Bool) : Node → List Capture
  | .node core ty children =>
    readOf core ty ++ readsUnder step core ty children (unrunAt step core ty children) 0 children

def readsUnder (step : Bool) (core : Core) (ty : Ty) (siblings : List Node) (unrun : List ℕ) :
    ℕ → List Node → List Capture
  | _, [] => []
  | child, node :: rest =>
    (if child ∈ unrun then []
      else without (boundAt core child) (reads (stepAt step core ty siblings child) node)) ++
      readsUnder step core ty siblings unrun (child + 1) rest

end

mutual

def callsHanded (planner : Planner) (step : Bool) : Node → Bool
  | .node core ty children => planner.handed core ||
    callsHandedUnder planner step core ty children (unrunAt step core ty children) 0 children

def callsHandedUnder (planner : Planner) (step : Bool) (core : Core) (ty : Ty)
    (siblings : List Node) (unrun : List ℕ) : ℕ → List Node → Bool
  | _, [] => false
  | child, node :: rest =>
    (if child ∈ unrun then false
      else callsHanded planner (stepAt step core ty siblings child) node) ||
      callsHandedUnder planner step core ty siblings unrun (child + 1) rest

end

def firsts (reads : List Capture) : List Capture :=
  (Reached.default.all ∅ reads).bindings

def siteOf (planner : Planner) (parameters : List ℕ) (body : List Node) (core : Core) (ty : Ty)
    (takes : List Ty) (answers : Ty) : Site :=
  planner.site parameters body ty takes answers
    ⟨firsts (readsUnder false core ty body (unrunAt false core ty body) 0 body),
      callsHandedUnder planner false core ty body (unrunAt false core ty body) 0 body⟩

def planned (planner : Planner) (place : List ℕ) (step : Bool) (core : Core) (ty : Ty)
    (children : List Node) : List (List ℕ × Site) :=
  match step, core, ty with
  | false, .block _ parameters, .fn takes answers =>
    [(place, siteOf planner parameters children core ty takes answers)]
  | _, _, _ => []

def claimed (step : Bool) (core : Core) : List ℕ :=
  match step, core with
  | false, .block site _ => [site]
  | _, _ => []

def isFunction (step : Bool) (core : Core) (ty : Ty) : Bool :=
  match step, core, ty with
  | false, .block _ _, .fn _ _ => true
  | false, .block _ _, _ => false
  | _, _, _ => true

mutual

def sitesIn (planner : Planner) (place : List ℕ) (step : Bool) : Node → List (List ℕ × Site)
  | .node core ty children =>
    sitesUnder planner place step core ty children (unrunAt step core ty children) 0 children ++
      planned planner place step core ty children

def sitesUnder (planner : Planner) (place : List ℕ) (step : Bool) (core : Core) (ty : Ty)
    (siblings : List Node) (unrun : List ℕ) : ℕ → List Node → List (List ℕ × Site)
  | _, [] => []
  | child, node :: rest =>
    (if child ∈ unrun then []
      else sitesIn planner (place ++ [child]) (stepAt step core ty siblings child) node) ++
      sitesUnder planner place step core ty siblings unrun (child + 1) rest

end

mutual

def numbersIn (step : Bool) : Node → List ℕ
  | .node core ty children =>
    numbersUnder step core ty children (unrunAt step core ty children) 0 children ++
      claimed step core

def numbersUnder (step : Bool) (core : Core) (ty : Ty) (siblings : List Node) (unrun : List ℕ) :
    ℕ → List Node → List ℕ
  | _, [] => []
  | child, node :: rest =>
    numbersIn (if child ∈ unrun then false else stepAt step core ty siblings child) node ++
      numbersUnder step core ty siblings unrun (child + 1) rest

end

mutual

def functions (step : Bool) : Node → Bool
  | .node core ty children =>
    functionsUnder step core ty children (unrunAt step core ty children) 0 children &&
      isFunction step core ty

def functionsUnder (step : Bool) (core : Core) (ty : Ty) (siblings : List Node)
    (unrun : List ℕ) : ℕ → List Node → Bool
  | _, [] => true
  | child, node :: rest =>
    functions (if child ∈ unrun then false else stepAt step core ty siblings child) node &&
      functionsUnder step core ty siblings unrun (child + 1) rest

end

def Plain : Core → Prop
  | .block _ _ => False
  | _ => True

theorem plain_cases (core : Core) :
    (∃ site parameters, core = .block site parameters) ∨ Plain core := by
  cases core with
  | block site parameters => exact .inl ⟨site, parameters, rfl⟩
  | _ => exact .inr trivial

section Plainly

variable {planner : Planner} {place : List ℕ} {step : Bool} {core : Core} {ty : Ty}
  {children : List Node}

def Walking.meets (walking : Walking) (handed : Bool) : Walking :=
  if handed then { walking with reached := { walking.reached with environment := true } }
  else walking

theorem walk_stepped (site : ℕ) (parameters : List ℕ) (walking : Walking) :
    walk planner place true (.node (.block site parameters) ty children) walking =
      walkUnder planner place true (.block site parameters) ty children [] 0 children walking := by
  cases ty <;> rfl

theorem walk_block (site : ℕ) (parameters : List ℕ) (takes : List Ty) (answers : Ty)
    (walking : Walking) :
    walk planner place false (.node (.block site parameters) (.fn takes answers) children) walking =
      (walkUnder planner place false (.block site parameters) (.fn takes answers) children
        (unrunAt false (.block site parameters) (.fn takes answers) children) 0 children
        ⟨∅, .default, walking.found⟩).bind fun inner =>
      (inner.found.number site).bind fun numbered =>
      (numbered.plan planner.lowered place
        (planner.site parameters children (.fn takes answers) takes answers inner.reached)).bind
      fun found => .ok (walking.carry inner.reached found) := rfl

theorem walk_not_function (h : ∀ takes answers, ty ≠ .fn takes answers) (site : ℕ)
    (parameters : List ℕ) (walking : Walking) :
    walk planner place false (.node (.block site parameters) ty children) walking =
      .error (.notFunction site) := by
  cases ty with
  | fn takes answers => exact absurd rfl (h takes answers)
  | _ => rfl

theorem reads_block (site : ℕ) (parameters : List ℕ) :
    reads step (.node (.block site parameters) ty children) =
      readsUnder step (.block site parameters) ty children
        (unrunAt step (.block site parameters) ty children) 0 children := rfl

theorem sitesIn_plain (h : Plain core) : sitesIn planner place step (.node core ty children) =
    sitesUnder planner place step core ty children (unrunAt step core ty children) 0 children := by
  have hplanned : planned planner place step core ty children = [] := by
    cases core with
    | block => cases h
    | _ => cases step <;> rfl
  rw [sitesIn, hplanned, List.append_nil]

theorem numbersIn_plain (h : Plain core) : numbersIn step (.node core ty children) =
    numbersUnder step core ty children (unrunAt step core ty children) 0 children := by
  have hclaimed : claimed step core = [] := by
    cases core with
    | block => cases h
    | _ => cases step <;> rfl
  rw [numbersIn, hclaimed, List.append_nil]

theorem functions_plain (h : Plain core) : functions step (.node core ty children) =
    functionsUnder step core ty children (unrunAt step core ty children) 0 children := by
  have hfunction : isFunction step core ty = true := by
    cases core with
    | block => cases h
    | _ => cases step <;> rfl
  rw [functions, hfunction, Bool.and_true]

end Plainly

theorem mem_enter (bound : Finset ℕ) (bindings : List ℕ) (binding : ℕ) :
    binding ∈ (enter bound bindings).1 ↔ binding ∈ bound ∨ binding ∈ bindings := by
  induction bindings generalizing bound with
  | nil => simp [enter]
  | cons first rest ih =>
    rw [enter, ih, Finset.mem_insert, List.mem_cons]
    tauto

theorem mem_leave (bound : Finset ℕ) (added : List ℕ) (binding : ℕ) :
    binding ∈ leave bound added ↔ binding ∈ bound ∧ binding ∉ added := by
  induction added generalizing bound with
  | nil => simp [leave]
  | cons first rest ih =>
    have h := ih (bound.erase first)
    rw [leave] at h
    rw [leave, List.foldl_cons, h, Finset.mem_erase, List.mem_cons]
    tauto

theorem mem_entered (bound : Finset ℕ) (bindings : List ℕ) (binding : ℕ) :
    binding ∈ (enter bound bindings).2 ↔ binding ∉ bound ∧ binding ∈ bindings := by
  induction bindings generalizing bound with
  | nil => simp [enter]
  | cons first rest ih =>
    rw [enter]
    by_cases hbound : first ∈ bound
    · rw [if_pos hbound, ih, Finset.insert_eq_of_mem hbound, List.mem_cons]
      refine and_congr_right fun hnot => ⟨.inr, Or.rec ?_ id⟩
      intro heq
      exact absurd (heq ▸ hbound) hnot
    · rw [if_neg hbound, List.mem_cons, ih, Finset.mem_insert, List.mem_cons]
      by_cases heq : binding = first
      · subst heq
        simp [hbound]
      · simp [heq]

theorem leave_enter (bound : Finset ℕ) (bindings : List ℕ) :
    leave (enter bound bindings).1 (enter bound bindings).2 = bound := by
  apply Finset.ext
  intro binding
  rw [mem_leave, mem_enter, mem_entered]
  tauto

theorem binding_environment (bound : Finset ℕ) (reached : Reached) (read : Capture) :
    (reached.binding bound read).environment = reached.environment := by
  rw [Reached.binding]
  split <;> rfl

theorem all_environment (bound : Finset ℕ) (reached : Reached) (reads : List Capture) :
    (reached.all bound reads).environment = reached.environment := by
  induction reads generalizing reached with
  | nil => rfl
  | cons read rest ih => exact (ih _).trans (binding_environment bound reached read)

theorem all_bindings {bound : Finset ℕ} {reached other : Reached} {reads : List Capture}
    (h : reached.bindings = other.bindings) :
    (reached.all bound reads).bindings = (other.all bound reads).bindings := by
  induction reads generalizing reached other with
  | nil => exact h
  | cons read rest ih =>
    refine @ih (reached.binding bound read) (other.binding bound read) ?_
    rw [Reached.binding, Reached.binding, h]
    split
    · rfl
    · exact h

theorem all_append (bound : Finset ℕ) (reached : Reached) (reads more : List Capture) :
    reached.all bound (reads ++ more) = (reached.all bound reads).all bound more :=
  List.foldl_append

theorem binding_eq_self {bound : Finset ℕ} {reached : Reached} {read : Capture}
    (h : read.binding ∈ bound ∨ read.binding ∈ reached.bindings.map Capture.binding) :
    reached.binding bound read = reached := by
  rw [Reached.binding, if_neg]
  tauto

theorem mem_binding {bound : Finset ℕ} {reached : Reached} {read : Capture} {number : ℕ} :
    number ∈ (reached.binding bound read).bindings.map Capture.binding ↔
      number ∈ reached.bindings.map Capture.binding ∨ number = read.binding ∧ number ∉ bound := by
  rw [Reached.binding]
  split
  · rename_i hnew
    rw [List.map_append, List.mem_append, List.map_singleton, List.mem_singleton]
    refine or_congr_right ⟨fun h => ⟨h, h ▸ hnew.1⟩, And.left⟩
  · rename_i hold
    rw [not_and_or, not_not, not_not] at hold
    refine ⟨.inl, Or.rec id ?_⟩
    rintro ⟨rfl, hbound⟩
    exact hold.resolve_left hbound

theorem mem_all {bound : Finset ℕ} {reached : Reached} {reads : List Capture} {number : ℕ} :
    number ∈ (reached.all bound reads).bindings.map Capture.binding ↔
      number ∈ reached.bindings.map Capture.binding ∨
        number ∈ reads.map Capture.binding ∧ number ∉ bound := by
  induction reads generalizing reached with
  | nil => simp [Reached.all]
  | cons read rest ih =>
    rw [Reached.all, List.foldl_cons, ← Reached.all, ih, mem_binding, List.map_cons, List.mem_cons]
    tauto

theorem all_enter (bound : Finset ℕ) (bindings : List ℕ) (reached : Reached)
    (reads : List Capture) : reached.all (enter bound bindings).1 reads =
      reached.all bound (without bindings reads) := by
  induction reads generalizing reached with
  | nil => rfl
  | cons read rest ih =>
    rw [without, List.filter_cons]
    by_cases hread : read.binding ∈ bindings
    · have hsame : reached.binding (enter bound bindings).1 read = reached :=
        binding_eq_self (.inl ((mem_enter _ _ _).mpr (.inr hread)))
      rw [if_neg (by simpa using hread), Reached.all, List.foldl_cons, hsame]
      exact ih reached
    · have hsame : reached.binding (enter bound bindings).1 read = reached.binding bound read := by
        simp only [Reached.binding, mem_enter, or_iff_left hread]
      rw [if_pos (by simpa using hread), Reached.all, Reached.all, List.foldl_cons, hsame,
        List.foldl_cons]
      exact ih _

theorem all_firsts (bound : Finset ℕ) (reached : Reached) (reads : List Capture) :
    reached.all bound (firsts reads) = reached.all bound reads := by
  induction reads using List.reverseRecOn with
  | nil => rfl
  | append_singleton reads read ih =>
    have hfirsts : firsts (reads ++ [read]) =
        ((Reached.default.all ∅ reads).binding ∅ read).bindings := by
      rw [firsts, all_append]
      rfl
    rw [hfirsts, all_append, Reached.binding]
    split
    · change reached.all bound (firsts reads ++ [read]) = _
      rw [all_append, ih]
    · rename_i hold
      have hmem : read.binding ∈ reads.map Capture.binding := by
        have h : read.binding ∈ (Reached.default.all ∅ reads).bindings.map Capture.binding := by
          simpa using hold
        simpa [Reached.default] using mem_all.mp h
      change reached.all bound (firsts reads) = _
      rw [ih]
      refine (binding_eq_self ?_).symm
      by_cases hbound : read.binding ∈ bound
      · exact .inl hbound
      · exact .inr (mem_all.mpr (.inr ⟨hmem, hbound⟩))

theorem mem_firsts {reads : List Capture} {number : ℕ} :
    number ∈ (firsts reads).map Capture.binding ↔ number ∈ reads.map Capture.binding := by
  rw [firsts, mem_all]
  simp [Reached.default]

/-- A walk that has read so much, called through the environment where `handed` says so, and found
    these sites and these numbers. -/
def Walking.after (reads : List Capture) (handed : Bool) (sites : List (List ℕ × Site))
    (numbers : List ℕ) (walking : Walking) : Walking where
  bound := walking.bound
  reached := { walking.reached.all walking.bound reads with
    environment := walking.reached.environment || handed }
  found := ⟨walking.found.sites ++ sites, walking.found.numbered.map (· ++ numbers)⟩

theorem numbered_nil (numbered : Option (List ℕ)) : numbered.map (· ++ []) = numbered := by simp

theorem numbered_append (numbered : Option (List ℕ)) (numbers rest : List ℕ) :
    (numbered.map (· ++ numbers)).map (· ++ rest) = numbered.map (· ++ (numbers ++ rest)) := by
  rw [Option.map_map]
  apply congrArg (fun added => numbered.map added)
  funext already
  exact List.append_assoc already numbers rest

theorem after_after (reads more : List Capture) (handed also : Bool)
    (sites others : List (List ℕ × Site)) (numbers rest : List ℕ) (walking : Walking) :
    (walking.after reads handed sites numbers).after more also others rest =
      walking.after (reads ++ more) (handed || also) (sites ++ others) (numbers ++ rest) := by
  have hbindings : (Reached.all walking.bound
      { walking.reached.all walking.bound reads with
        environment := walking.reached.environment || handed } more).bindings =
      ((walking.reached.all walking.bound reads).all walking.bound more).bindings :=
    all_bindings rfl
  simp only [Walking.after, hbindings, numbered_append, all_append, Bool.or_assoc,
    List.append_assoc]

theorem after_nil (walking : Walking) : walking.after [] false [] [] = walking := by
  rw [Walking.after, List.append_nil, Bool.or_false, numbered_nil]
  rfl

theorem meets_eq (handed : Bool) (walking : Walking) :
    walking.meets handed = walking.after [] handed [] [] := by
  cases handed with
  | false => exact (after_nil walking).symm
  | true =>
    rw [Walking.after, List.append_nil, Bool.or_true, numbered_nil]
    rfl

theorem after_read (binding : ℕ) (ty : Ty) (walking : Walking) :
    walking.after [⟨binding, ty⟩] false [] [] =
      { walking with reached := walking.reached.binding walking.bound ⟨binding, ty⟩ } := by
  have henvironment := binding_environment walking.bound walking.reached ⟨binding, ty⟩
  rw [Walking.after, List.append_nil, Bool.or_false, numbered_nil, ← henvironment]
  rfl

theorem walk_plain {planner : Planner} {place : List ℕ} {step : Bool} {core : Core} {ty : Ty}
    {children : List Node} (h : Plain core) (walking : Walking) :
    walk planner place step (.node core ty children) walking =
      walkUnder planner place step core ty children (unrunAt step core ty children) 0 children
        (walking.after (readOf core ty) (planner.handed core) [] []) := by
  cases core with
  | block => cases h
  | read binding => exact congrArg _ (after_read binding ty walking).symm
  | call reaches => exact congrArg _ (meets_eq _ walking)
  | _ => exact congrArg _ (after_nil walking).symm

theorem after_scope (bindings : List ℕ) (reads : List Capture) (handed : Bool)
    (sites : List (List ℕ × Site)) (numbers : List ℕ) (walking : Walking) :
    Walking.mk (leave (enter walking.bound bindings).1 (enter walking.bound bindings).2)
      (Walking.after reads handed sites numbers
        { walking with bound := (enter walking.bound bindings).1 }).reached
      (Walking.after reads handed sites numbers
        { walking with bound := (enter walking.bound bindings).1 }).found =
      walking.after (without bindings reads) handed sites numbers := by
  simp only [Walking.after, leave_enter, all_enter]

theorem after_block (reads : List Capture) (handed : Bool) (sites : List (List ℕ × Site))
    (numbers : List ℕ) (site : ℕ) (walking : Walking) (planned : List (List ℕ × Site)) :
    walking.carry (Walking.after reads handed sites numbers ⟨∅, .default, walking.found⟩).reached
      ⟨walking.found.sites ++ sites ++ planned,
        (walking.found.numbered.map (· ++ numbers)).map (· ++ [site])⟩ =
      walking.after reads handed (sites ++ planned) (numbers ++ [site]) := by
  have hreached : walking.reached.all walking.bound (Reached.all ∅ ⟨[], false⟩ reads).bindings =
      walking.reached.all walking.bound reads := all_firsts _ _ _
  simp only [Walking.carry, Walking.after, hreached, numbered_append, all_environment,
    Reached.default, Bool.false_or, List.append_assoc]

theorem number_ok {found found' : ClosureSites} {site : ℕ} (h : found.number site = .ok found') :
    found' = ⟨found.sites, found.numbered.map (· ++ [site])⟩ ∧
      ∀ numbers, found.numbered = some numbers → site ∉ numbers := by
  rw [ClosureSites.number] at h
  cases hnumbered : found.numbered with
  | none =>
    rw [hnumbered] at h
    refine ⟨?_, by simp⟩
    rw [← Except.ok.inj h, Option.map_none, ← hnumbered]
  | some numbers =>
    rw [hnumbered] at h
    by_cases hsite : site ∈ numbers
    · simp only [hsite, if_true] at h
      cases h
    · simp only [hsite, if_false] at h
      refine ⟨(Except.ok.inj h).symm, ?_⟩
      rintro _ ⟨⟩
      exact hsite

theorem plan_ok {found found' : ClosureSites} {lowered : Bool} {place : List ℕ} {site : Site}
    (h : found.plan lowered place site = .ok found') :
    found' = ⟨found.sites ++ (if lowered then [(place, site)] else []), found.numbered⟩ ∧
      (lowered = true → place ∉ found.sites.map Prod.fst) := by
  cases lowered with
  | false =>
    rw [← Except.ok.inj h]
    exact ⟨by simp, by simp⟩
  | true =>
    rw [ClosureSites.plan, if_pos rfl] at h
    by_cases hplace : place ∈ found.sites.map Prod.fst
    · rw [if_pos hplace] at h
      cases h
    · rw [if_neg hplace] at h
      exact ⟨(Except.ok.inj h).symm, fun _ => hplace⟩

structure ClosureSites.Once (found : ClosureSites) : Prop where
  numbers : ∀ numbers, found.numbered = some numbers → numbers.Nodup
  places : (found.sites.map Prod.fst).Nodup

theorem once_nil {reads : List Capture} {handed : Bool} {walking : Walking} :
    (walking.after reads handed [] []).found.Once ↔ walking.found.Once := by
  rw [Walking.after, List.append_nil, numbered_nil]

theorem once_block {found : ClosureSites} {site : ℕ} {lowered : Bool} {place : List ℕ}
    {planned : Site} (h : found.Once)
    (hnumber : ∀ numbers, found.numbered = some numbers → site ∉ numbers)
    (hplace : lowered = true → place ∉ found.sites.map Prod.fst) :
    (ClosureSites.mk (found.sites ++ if lowered then [(place, planned)] else [])
      (found.numbered.map (· ++ [site]))).Once := by
  constructor
  · intro numbers hnumbers
    obtain ⟨before, hbefore, rfl⟩ := Option.map_eq_some_iff.mp hnumbers
    exact (h.numbers before hbefore).append (List.nodup_singleton site)
      (List.disjoint_singleton.mpr (hnumber before hbefore))
  · cases lowered with
    | false => simpa using h.places
    | true =>
      rw [if_pos rfl, List.map_append]
      exact h.places.append (List.nodup_singleton place) (List.disjoint_singleton.mpr (hplace rfl))

mutual

theorem walk_ok (planner : Planner) (place : List ℕ) (step : Bool) :
    ∀ (node : Node) (walking walked : Walking), walk planner place step node walking = .ok walked →
      functions step node = true ∧ walked = walking.after (reads step node)
        (callsHanded planner step node)
        (if planner.lowered then sitesIn planner place step node else []) (numbersIn step node) ∧
        (walking.found.Once → walked.found.Once)
  | .node core ty children, walking, walked, h => by
    have hunder := walkUnder_ok planner place step core ty children (unrunAt step core ty children)
      0 children
    rcases plain_cases core with ⟨site, parameters, rfl⟩ | hplain
    · cases step with
      | true =>
        rw [walk_stepped] at h
        obtain ⟨hfunctions, rfl, honce⟩ := hunder _ _ h
        rw [functions, reads_block, callsHanded, sitesIn, numbersIn]
        refine ⟨(Bool.and_true _).trans hfunctions, ?_, honce⟩
        simp only [planned, claimed, Planner.handed, List.append_nil, Bool.false_or]
      | false =>
        cases ty with
        | fn takes answers =>
          rw [walk_block] at h
          obtain ⟨inner, hinner, h⟩ := Widening.of_bind h
          obtain ⟨numbered, hnumbered, h⟩ := Widening.of_bind h
          obtain ⟨found, hfound, h⟩ := Widening.of_bind h
          obtain ⟨hfunctions, rfl, honce⟩ := hunder _ _ hinner
          obtain ⟨rfl, hnumber⟩ := number_ok hnumbered
          obtain ⟨rfl, hplace⟩ := plan_ok hfound
          rw [← Except.ok.inj h, functions, reads_block, callsHanded, sitesIn, numbersIn]
          refine ⟨(Bool.and_true _).trans hfunctions, ?_,
            fun hfound => once_block (honce hfound) hnumber hplace⟩
          refine (after_block _ _ _ _ _ _ _).trans ?_
          have hnone : planner.handed (.block site parameters) = false := rfl
          rw [hnone, Bool.false_or]
          cases planner.lowered <;> rfl
        | _ =>
          rw [walk_not_function (by simp)] at h
          cases h
    · rw [walk_plain hplain] at h
      obtain ⟨hfunctions, rfl, honce⟩ := hunder _ _ h
      refine ⟨(functions_plain hplain).trans hfunctions, ?_, fun h => honce (once_nil.mpr h)⟩
      rw [after_after, sitesIn_plain hplain, numbersIn_plain hplain, callsHanded, reads]
      rfl

theorem walkUnder_ok (planner : Planner) (place : List ℕ) (step : Bool) (core : Core) (ty : Ty)
    (siblings : List Node) (unrun : List ℕ) :
    ∀ (child : ℕ) (children : List Node) (walking walked : Walking),
      walkUnder planner place step core ty siblings unrun child children walking = .ok walked →
      functionsUnder step core ty siblings unrun child children = true ∧
        walked = walking.after (readsUnder step core ty siblings unrun child children)
          (callsHandedUnder planner step core ty siblings unrun child children)
          (if planner.lowered then
            sitesUnder planner place step core ty siblings unrun child children else [])
          (numbersUnder step core ty siblings unrun child children) ∧
        (walking.found.Once → walked.found.Once)
  | _, [], walking, walked, h => by
    rw [walkUnder] at h
    rw [← Except.ok.inj h]
    refine ⟨rfl, ?_, id⟩
    have hsites : (if planner.lowered then
        sitesUnder planner place step core ty siblings unrun 0 [] else []) = [] := by
      rw [sitesUnder, ite_self]
    exact (hsites ▸ after_nil walking).symm
  | child, node :: rest, walking, walked, h => by
    rw [walkUnder] at h
    rw [functionsUnder, readsUnder, callsHandedUnder, sitesUnder, numbersUnder]
    by_cases hunrun : child ∈ unrun
    · rw [if_pos hunrun] at h
      obtain ⟨inner, hinner, h⟩ := Widening.of_bind h
      obtain ⟨hfunctions, rfl, honce⟩ := walk_ok _ _ false node _ inner hinner
      obtain ⟨hrest, rfl, honces⟩ := walkUnder_ok planner place step core ty siblings unrun
        (child + 1) rest _ _ h
      simp only [if_pos hunrun, hfunctions, hrest]
      refine ⟨rfl, ?_, fun h => honces (honce h)⟩
      have hinner := after_after [] (readsUnder step core ty siblings unrun (child + 1) rest) false
        (callsHandedUnder planner step core ty siblings unrun (child + 1) rest) []
        (if planner.lowered then
          sitesUnder planner place step core ty siblings unrun (child + 1) rest else [])
        (numbersIn false node) (numbersUnder step core ty siblings unrun (child + 1) rest) walking
      simpa [Walking.after, Reached.all] using hinner
    · rw [if_neg hunrun] at h
      obtain ⟨inner, hinner, h⟩ := Widening.of_bind h
      obtain ⟨hfunctions, rfl, honce⟩ := walk_ok _ _ _ node _ inner hinner
      obtain ⟨hrest, rfl, honces⟩ := walkUnder_ok planner place step core ty siblings unrun
        (child + 1) rest _ _ h
      simp only [if_neg hunrun, hfunctions, hrest]
      refine ⟨rfl, ?_, fun h => honces (honce h)⟩
      have hscope := after_scope (boundAt core child)
        (reads (stepAt step core ty siblings child) node)
        (callsHanded planner (stepAt step core ty siblings child) node)
        (if planner.lowered then
          sitesIn planner (place ++ [child]) (stepAt step core ty siblings child) node else [])
        (numbersIn (stepAt step core ty siblings child) node) walking
      refine (congrArg _ hscope).trans ((after_after _ _ _ _ _ _ _ _ _).trans ?_)
      cases planner.lowered <;> rfl

end

/-- A node is planned where it is a block of a function type and no walk's step, and then once. -/
theorem planned_cases (planner : Planner) (place : List ℕ) (step : Bool) (core : Core) (ty : Ty)
    (children : List Node) : planned planner place step core ty children = [] ∨
      step = false ∧ ∃ site parameters takes answers, core = .block site parameters ∧
        ty = .fn takes answers ∧ planned planner place step core ty children =
          [(place, siteOf planner parameters children core ty takes answers)] := by
  cases step with
  | true => exact .inl rfl
  | false =>
    cases core with
    | block site parameters =>
      cases ty with
      | fn takes answers => exact .inr ⟨rfl, site, parameters, takes, answers, rfl, rfl, rfl⟩
      | _ => exact .inl rfl
    | _ => exact .inl rfl

theorem planned_place {planner : Planner} {place : List ℕ} {step : Bool} {core : Core} {ty : Ty}
    {children : List Node} {entry : List ℕ × Site}
    (h : entry ∈ planned planner place step core ty children) : entry.1 = place := by
  rcases planned_cases planner place step core ty children with
    hnone | ⟨-, site, parameters, takes, answers, -, -, hone⟩
  · rw [hnone] at h
    cases h
  · rw [hone, List.mem_singleton] at h
    rw [h]

mutual

theorem sitesIn_places (planner : Planner) (place : List ℕ) (step : Bool) :
    ∀ (node : Node), ∀ entry ∈ sitesIn planner place step node, place <+: entry.1
  | .node core ty children, entry, h => by
    rw [sitesIn, List.mem_append] at h
    rcases h with h | h
    · obtain ⟨child, -, hchild⟩ := sitesUnder_places planner place step core ty children _ 0 children
        entry h
      exact (List.prefix_append place [child]).trans hchild
    · exact planned_place h ▸ List.prefix_rfl

theorem sitesUnder_places (planner : Planner) (place : List ℕ) (step : Bool) (core : Core) (ty : Ty)
    (siblings : List Node) (unrun : List ℕ) :
    ∀ (child : ℕ) (children : List Node),
      ∀ entry ∈ sitesUnder planner place step core ty siblings unrun child children,
        ∃ at' ≥ child, place ++ [at'] <+: entry.1
  | _, [], _, h => by cases h
  | child, node :: rest, entry, h => by
    rw [sitesUnder, List.mem_append] at h
    rcases h with h | h
    · by_cases hunrun : child ∈ unrun
      · rw [if_pos hunrun] at h
        cases h
      · rw [if_neg hunrun] at h
        exact ⟨child, le_rfl, sitesIn_places planner _ _ node entry h⟩
    · obtain ⟨at', hat, hprefix⟩ := sitesUnder_places planner place step core ty siblings unrun
        (child + 1) rest entry h
      exact ⟨at', Nat.le_of_succ_le hat, hprefix⟩

end

theorem places_apart {place one other : List ℕ} {child at' : ℕ} (hone : place ++ [child] <+: one)
    (hother : place ++ [at'] <+: other) (h : child < at') : one ≠ other := by
  rintro rfl
  have hsame : place ++ [child] = place ++ [at'] :=
    (List.prefix_of_prefix_length_le hone hother (by simp)).eq_of_length (by simp)
  have heq : child = at' := by simpa using hsame
  omega

mutual

theorem sitesIn_nodup (planner : Planner) (place : List ℕ) (step : Bool) :
    ∀ (node : Node), ((sitesIn planner place step node).map Prod.fst).Nodup
  | .node core ty children => by
    have hunder := sitesUnder_nodup planner place step core ty children
      (unrunAt step core ty children) 0 children
    have honce : ((planned planner place step core ty children).map Prod.fst).Nodup := by
      rcases planned_cases planner place step core ty children with
        hnone | ⟨-, site, parameters, takes, answers, -, -, hone⟩
      · rw [hnone]
        exact List.nodup_nil
      · rw [hone]
        exact List.nodup_singleton place
    rw [sitesIn, List.map_append]
    refine hunder.append honce ?_
    intro at' hat hplace
    obtain ⟨entry, hentry, rfl⟩ := List.mem_map.mp hat
    obtain ⟨other, hother, heq⟩ := List.mem_map.mp hplace
    obtain ⟨child, -, hchild⟩ := sitesUnder_places planner place step core ty children _ 0 children
      entry hentry
    have hlength := hchild.length_le
    rw [← heq, planned_place hother, List.length_append] at hlength
    simp at hlength

theorem sitesUnder_nodup (planner : Planner) (place : List ℕ) (step : Bool) (core : Core) (ty : Ty)
    (siblings : List Node) (unrun : List ℕ) :
    ∀ (child : ℕ) (children : List Node),
      ((sitesUnder planner place step core ty siblings unrun child children).map Prod.fst).Nodup
  | _, [] => List.nodup_nil
  | child, node :: rest => by
    have hrest := sitesUnder_nodup planner place step core ty siblings unrun (child + 1) rest
    rw [sitesUnder, List.map_append]
    by_cases hunrun : child ∈ unrun
    · rw [if_pos hunrun]
      exact hrest
    · rw [if_neg hunrun]
      refine (sitesIn_nodup planner _ _ node).append hrest ?_
      intro at' hat hplace
      obtain ⟨entry, hentry, rfl⟩ := List.mem_map.mp hat
      obtain ⟨other, hother, heq⟩ := List.mem_map.mp hplace
      obtain ⟨later, hlater, hafter⟩ := sitesUnder_places planner place step core ty siblings unrun
        (child + 1) rest other hother
      exact places_apart (sitesIn_places planner _ _ node entry hentry) hafter hlater heq.symm

end

/-- What has room for more sites and numbers has room for fewer. -/
structure ClosureSites.Fits (found : ClosureSites) (sites : List (List ℕ × Site))
    (numbers : List ℕ) : Prop where
  numbers : ∀ already, found.numbered = some already → (already ++ numbers).Nodup
  places : ((found.sites ++ sites).map Prod.fst).Nodup

theorem ClosureSites.Fits.left {found : ClosureSites} {sites others : List (List ℕ × Site)}
    {numbers rest : List ℕ} (h : found.Fits (sites ++ others) (numbers ++ rest)) :
    found.Fits sites numbers := by
  constructor
  · intro already halready
    have hall := h.numbers already halready
    rw [← List.append_assoc] at hall
    exact hall.of_append_left
  · have hall := h.places
    rw [← List.append_assoc, List.map_append] at hall
    exact hall.of_append_left

theorem ClosureSites.Fits.right {found : ClosureSites} {sites others : List (List ℕ × Site)}
    {numbers rest : List ℕ} (h : found.Fits (sites ++ others) (numbers ++ rest)) :
    (ClosureSites.mk (found.sites ++ sites) (found.numbered.map (· ++ numbers))).Fits others
      rest := by
  constructor
  · intro already halready
    obtain ⟨before, hbefore, rfl⟩ := Option.map_eq_some_iff.mp halready
    rw [List.append_assoc]
    exact h.numbers before hbefore
  · have hall := h.places
    rw [← List.append_assoc] at hall
    exact hall

theorem fits_nil {walking : Walking} {reads : List Capture} {handed : Bool}
    {sites : List (List ℕ × Site)} {numbers : List ℕ} (h : walking.found.Fits sites numbers) :
    (walking.after reads handed [] []).found.Fits sites numbers :=
  @ClosureSites.Fits.right walking.found [] sites [] numbers h

theorem block_ends {found : ClosureSites} {place : List ℕ} {site : ℕ} {lowered : Bool}
    {planned other : Site} (h : found.Fits (if lowered then [(place, other)] else []) [site]) :
    ∃ numbered found', found.number site = .ok numbered ∧
      numbered.plan lowered place planned = .ok found' := by
  have hplan : ∀ numbered : ClosureSites, numbered.sites = found.sites →
      ∃ found', numbered.plan lowered place planned = .ok found' := by
    intro numbered hsites
    have hplaces := h.places
    cases lowered with
    | false => exact ⟨_, rfl⟩
    | true =>
      rw [if_pos rfl, List.map_append, List.nodup_append_comm] at hplaces
      have hplace : place ∉ numbered.sites.map Prod.fst := hsites ▸ (List.nodup_cons.mp hplaces).1
      exact ⟨_, by rw [ClosureSites.plan, if_pos rfl, if_neg hplace]⟩
  cases hnumbered : found.numbered with
  | none =>
    obtain ⟨found', hfound⟩ := hplan found rfl
    exact ⟨found, found', by rw [ClosureSites.number, hnumbered], hfound⟩
  | some numbers =>
    have hnumbers := h.numbers numbers hnumbered
    rw [List.nodup_append_comm] at hnumbers
    have hsite : site ∉ numbers := (List.nodup_cons.mp hnumbers).1
    obtain ⟨found', hfound⟩ := hplan { found with numbered := some (numbers ++ [site]) } rfl
    refine ⟨_, found', ?_, hfound⟩
    simp only [ClosureSites.number, hnumbered, if_neg hsite]

mutual

/-- A walk ends where every site is a function and no number is claimed twice. -/
theorem walk_ends (planner : Planner) (place : List ℕ) (step : Bool) :
    ∀ (node : Node) (walking : Walking), functions step node = true →
      walking.found.Fits (if planner.lowered then sitesIn planner place step node else [])
        (numbersIn step node) →
      ∃ walked, walk planner place step node walking = .ok walked
  | .node core ty children, walking, hfunctions, hfits => by
    have hunder := walkUnder_ends planner place step core ty children
      (unrunAt step core ty children) 0 children
    rcases plain_cases core with ⟨site, parameters, rfl⟩ | hplain
    · rw [functions, Bool.and_eq_true] at hfunctions
      cases step with
      | true =>
        have hsites : sitesIn planner place true (.node (.block site parameters) ty children) =
            sitesUnder planner place true (.block site parameters) ty children
              (unrunAt true (.block site parameters) ty children) 0 children := List.append_nil _
        have hnumbers : numbersIn true (.node (.block site parameters) ty children) =
            numbersUnder true (.block site parameters) ty children
              (unrunAt true (.block site parameters) ty children) 0 children := List.append_nil _
        rw [hsites, hnumbers] at hfits
        rw [walk_stepped]
        exact hunder _ hfunctions.1 hfits
      | false =>
        cases ty with
        | fn takes answers =>
          have hsites : (if planner.lowered then sitesIn planner place false
              (.node (.block site parameters) (.fn takes answers) children) else []) =
              (if planner.lowered then sitesUnder planner place false (.block site parameters)
                (.fn takes answers) children
                (unrunAt false (.block site parameters) (.fn takes answers) children) 0 children
                else []) ++ (if planner.lowered then [(place, siteOf planner parameters children
                  (.block site parameters) (.fn takes answers) takes answers)] else []) := by
            cases planner.lowered <;> rfl
          have hnumbers : numbersIn false (.node (.block site parameters) (.fn takes answers)
              children) = numbersUnder false (.block site parameters) (.fn takes answers) children
                (unrunAt false (.block site parameters) (.fn takes answers) children) 0 children ++
              [site] := rfl
          rw [hsites, hnumbers] at hfits
          obtain ⟨inner, hinner⟩ := hunder ⟨∅, .default, walking.found⟩ hfunctions.1 hfits.left
          obtain ⟨-, hafter, -⟩ := walkUnder_ok planner place false _ _ _ _ 0 children _ _ hinner
          have hblock : inner.found.Fits (if planner.lowered then [(place, siteOf planner parameters
              children (.block site parameters) (.fn takes answers) takes answers)] else [])
              [site] := by
            rw [hafter]
            exact hfits.right
          obtain ⟨numbered, found, hnumber, hplan⟩ := @block_ends _ _ _ _ (planner.site parameters
            children (.fn takes answers) takes answers inner.reached) _ hblock
          refine ⟨walking.carry inner.reached found, ?_⟩
          rw [walk_block, hinner]
          simp only [Except.bind, hnumber, hplan]
        | _ => cases hfunctions.2
    · rw [functions_plain hplain] at hfunctions
      rw [sitesIn_plain hplain, numbersIn_plain hplain] at hfits
      rw [walk_plain hplain]
      exact hunder _ hfunctions (fits_nil hfits)

theorem walkUnder_ends (planner : Planner) (place : List ℕ) (step : Bool) (core : Core) (ty : Ty)
    (siblings : List Node) (unrun : List ℕ) :
    ∀ (child : ℕ) (children : List Node) (walking : Walking),
      functionsUnder step core ty siblings unrun child children = true →
      walking.found.Fits (if planner.lowered then
          sitesUnder planner place step core ty siblings unrun child children else [])
        (numbersUnder step core ty siblings unrun child children) →
      ∃ walked, walkUnder planner place step core ty siblings unrun child children walking =
        .ok walked
  | _, [], walking, _, _ => ⟨walking, rfl⟩
  | child, node :: rest, walking, hfunctions, hfits => by
    rw [functionsUnder, Bool.and_eq_true] at hfunctions
    rw [sitesUnder, numbersUnder] at hfits
    rw [walkUnder]
    by_cases hunrun : child ∈ unrun
    · rw [if_pos hunrun]
      rw [if_pos hunrun] at hfunctions
      simp only [if_pos hunrun] at hfits
      have hfits : walking.found.Fits ([] ++ if planner.lowered then
          sitesUnder planner place step core ty siblings unrun (child + 1) rest else [])
          (numbersIn false node ++
            numbersUnder step core ty siblings unrun (child + 1) rest) := by
        simpa using hfits
      obtain ⟨inner, hinner⟩ := walk_ends { planner with lowered := false } (place ++ [child]) false
        node ⟨∅, .default, walking.found⟩ hfunctions.1 hfits.left
      obtain ⟨-, hafter, -⟩ := walk_ok _ _ false node _ inner hinner
      obtain ⟨walked, hwalked⟩ := walkUnder_ends planner place step core ty siblings unrun
        (child + 1) rest { walking with found := inner.found } hfunctions.2 (by
          rw [hafter]
          exact hfits.right)
      exact ⟨walked, (congrArg (Except.bind · _) hinner).trans hwalked⟩
    · rw [if_neg hunrun]
      rw [if_neg hunrun] at hfunctions
      have hsites : (if planner.lowered then (if child ∈ unrun then [] else
          sitesIn planner (place ++ [child]) (stepAt step core ty siblings child) node) ++
            sitesUnder planner place step core ty siblings unrun (child + 1) rest else []) =
          (if planner.lowered then
            sitesIn planner (place ++ [child]) (stepAt step core ty siblings child) node else []) ++
          (if planner.lowered then
            sitesUnder planner place step core ty siblings unrun (child + 1) rest else []) := by
        rw [if_neg hunrun]
        cases planner.lowered <;> rfl
      rw [hsites, if_neg hunrun] at hfits
      obtain ⟨inner, hinner⟩ := walk_ends planner (place ++ [child])
        (stepAt step core ty siblings child) node
        { walking with bound := (enter walking.bound (boundAt core child)).1 } hfunctions.1
        (ClosureSites.Fits.left hfits)
      obtain ⟨-, hafter, -⟩ := walk_ok _ _ _ node _ inner hinner
      obtain ⟨walked, hwalked⟩ := walkUnder_ends planner place step core ty siblings unrun
        (child + 1) rest
        { inner with bound := leave inner.bound (enter walking.bound (boundAt core child)).2 }
        hfunctions.2 (by
          rw [hafter]
          exact hfits.right)
      exact ⟨walked, (congrArg (Except.bind · _) hinner).trans hwalked⟩

end

def sitesOf : ℕ → List Standing → List (List ℕ × Site)
  | _, [] => []
  | body, standing :: rest =>
    sitesIn ⟨standing.carrier, standing.environment, true⟩ [body] false standing.node ++
      sitesOf (body + 1) rest

def numbersOf (bodies : List Standing) : List ℕ :=
  bodies.flatMap fun standing => numbersIn false standing.node

theorem walkBodies_ok {bodies : List Standing} {body : ℕ} {found found' : ClosureSites}
    (h : walkBodies body bodies found = .ok found') :
    (∀ standing ∈ bodies, functions false standing.node = true) ∧
      found' = ⟨found.sites ++ sitesOf body bodies,
        found.numbered.map (· ++ numbersOf bodies)⟩ ∧ (found.Once → found'.Once) := by
  induction bodies generalizing body found with
  | nil =>
    have hnumbered : found.numbered.map (· ++ numbersOf []) = found.numbered := by
      simp [numbersOf]
    rw [← Except.ok.inj h, sitesOf, List.append_nil, hnumbered]
    exact ⟨by simp, rfl, id⟩
  | cons standing rest ih =>
    rw [walkBodies] at h
    obtain ⟨walked, hwalked, h⟩ := Widening.of_bind h
    obtain ⟨hfunctions, rfl, honce⟩ := walk_ok _ _ false standing.node _ walked hwalked
    obtain ⟨hrest, rfl, honces⟩ := ih h
    refine ⟨List.forall_mem_cons.mpr ⟨hfunctions, hrest⟩, ?_, fun h => honces (honce h)⟩
    have hnumbers : (found.numbered.map (· ++ numbersIn false standing.node)).map
        (· ++ numbersOf rest) = found.numbered.map (· ++ numbersOf (standing :: rest)) := by
      rw [Option.map_map]
      congr 1
      funext already
      exact List.append_assoc already _ _
    simp only [Walking.after, hnumbers, sitesOf, if_true, List.append_assoc]

theorem sitesOf_places {bodies : List Standing} {body : ℕ} {entry : List ℕ × Site}
    (h : entry ∈ sitesOf body bodies) : ∃ at' ≥ body, [at'] <+: entry.1 := by
  induction bodies generalizing body with
  | nil => cases h
  | cons standing rest ih =>
    rw [sitesOf, List.mem_append] at h
    rcases h with h | h
    · exact ⟨body, le_rfl, sitesIn_places _ _ _ _ _ h⟩
    · obtain ⟨at', hat, hprefix⟩ := ih h
      exact ⟨at', Nat.le_of_succ_le hat, hprefix⟩

theorem mem_sitesOf {bodies : List Standing} {first : ℕ} {entry : List ℕ × Site} :
    entry ∈ sitesOf first bodies ↔ ∃ number standing, bodies[number]? = some standing ∧
      entry ∈ sitesIn ⟨standing.carrier, standing.environment, true⟩ [first + number] false
        standing.node := by
  induction bodies generalizing first with
  | nil => simp [sitesOf]
  | cons standing rest ih =>
    rw [sitesOf, List.mem_append, ih]
    constructor
    · rintro (hentry | ⟨number, later, hlater, hentry⟩)
      · exact ⟨0, standing, rfl, hentry⟩
      · rw [Nat.add_right_comm] at hentry
        exact ⟨number + 1, later, hlater, hentry⟩
    · rintro ⟨number, later, hlater, hentry⟩
      cases number with
      | zero =>
        cases hlater
        exact .inl hentry
      | succ number =>
        rw [← Nat.add_assoc, Nat.add_right_comm] at hentry
        exact .inr ⟨number, later, hlater, hentry⟩

theorem sitesOf_nodup (bodies : List Standing) (body : ℕ) :
    ((sitesOf body bodies).map Prod.fst).Nodup := by
  induction bodies generalizing body with
  | nil => exact List.nodup_nil
  | cons standing rest ih =>
    rw [sitesOf, List.map_append]
    refine (sitesIn_nodup _ _ _ _).append (ih (body + 1)) ?_
    intro at' hat hplace
    obtain ⟨entry, hentry, rfl⟩ := List.mem_map.mp hat
    obtain ⟨other, hother, heq⟩ := List.mem_map.mp hplace
    obtain ⟨later, hlater, hafter⟩ := sitesOf_places hother
    exact @places_apart [] _ _ body later (sitesIn_places _ _ _ _ _ hentry) hafter hlater heq.symm

theorem walkBodies_ends {bodies : List Standing} {body : ℕ} {found : ClosureSites}
    (hfunctions : ∀ standing ∈ bodies, functions false standing.node = true)
    (hfits : found.Fits (sitesOf body bodies) (numbersOf bodies)) :
    ∃ found', walkBodies body bodies found = .ok found' := by
  induction bodies generalizing body found with
  | nil => exact ⟨found, rfl⟩
  | cons standing rest ih =>
    obtain ⟨hfunction, hrest⟩ := List.forall_mem_cons.mp hfunctions
    obtain ⟨walked, hwalked⟩ := walk_ends ⟨standing.carrier, standing.environment, true⟩ [body] false
      standing.node ⟨∅, .default, found⟩ hfunction hfits.left
    obtain ⟨-, hafter, -⟩ := walk_ok _ _ false standing.node _ walked hwalked
    obtain ⟨found', hfound⟩ := @ih (body + 1) walked.found hrest (by
      rw [hafter]
      exact hfits.right)
    refine ⟨found', ?_⟩
    rw [walkBodies, hwalked]
    exact hfound

/-- Bodies are planned where every block is of a function type, and then each block that is lowered
    once. -/
theorem of_eq_ok {bodies : List Standing} {found : ClosureSites} :
    ClosureSites.of bodies = .ok found ↔
      (∀ standing ∈ bodies, functions false standing.node = true) ∧
        found = ⟨sitesOf 0 bodies, none⟩ := by
  constructor
  · intro h
    obtain ⟨hfunctions, rfl, -⟩ := walkBodies_ok h
    exact ⟨hfunctions, rfl⟩
  · rintro ⟨hfunctions, rfl⟩
    obtain ⟨found', hfound⟩ := @walkBodies_ends bodies 0 ⟨[], none⟩ hfunctions
      ⟨by simp, sitesOf_nodup bodies 0⟩
    obtain ⟨-, rfl, -⟩ := walkBodies_ok hfound
    exact hfound

/-- A plan is found by its own place, whatever else is planned. -/
theorem at_of_mem {found : ClosureSites} (hnodup : (found.sites.map Prod.fst).Nodup)
    {place : List ℕ} {site : Site} (h : (place, site) ∈ found.sites) :
    ∃ id, found.at place = some (id, site) ∧ found.sites[id]? = some (place, site) := by
  obtain ⟨id, hid, heq⟩ := List.mem_iff_getElem.mp h
  have hfind : found.sites.zipIdx.find? (fun entry => entry.1.1 = place) =
      some ((place, site), id) := by
    rw [List.find?_eq_some_iff_getElem]
    refine ⟨by simp, id, by simpa using hid, by simp [heq], ?_⟩
    intro before hbefore
    have hne : found.sites[before].1 ≠ place := by
      intro hsame
      have hboth : (found.sites.map Prod.fst)[before]? = (found.sites.map Prod.fst)[id]? := by
        simp [hid, hbefore.trans hid, hsame, heq]
      exact List.nodup_iff_getElem?_ne_getElem?.mp hnodup before id hbefore (by simpa using hid) hboth
    simpa using hne
  refine ⟨id, ?_, List.getElem?_eq_some_iff.mpr ⟨hid, heq⟩⟩
  rw [ClosureSites.at, hfind]
  rfl

theorem mem_of_at {found : ClosureSites} {place : List ℕ} {id : ℕ} {plan : Site}
    (h : found.at place = some (id, plan)) : found.sites[id]? = some (place, plan) := by
  rw [ClosureSites.at, Option.map_eq_some_iff] at h
  obtain ⟨⟨entry, at'⟩, hfind, heq⟩ := h
  have hplace := List.find?_some hfind
  have hget := List.getElem?_of_mem (List.mem_of_find?_eq_some hfind)
  obtain ⟨index, hindex⟩ := hget
  rw [List.getElem?_zipIdx, Option.map_eq_some_iff] at hindex
  obtain ⟨found', hfound, hboth⟩ := hindex
  cases hboth
  cases heq
  rw [Nat.zero_add, hfound]
  exact congrArg (fun place => some (place, entry.2)) (of_decide_eq_true hplace)

end SoutherNative.Closures
