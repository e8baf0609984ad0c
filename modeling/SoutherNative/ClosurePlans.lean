import Mathlib
import SoutherNative.Closures

set_option autoImplicit false

/-!
# What a plan says of a block

Every block that is lowered is planned, under the place it stands at, and nothing else is. A plan
carries what the block reads of what is bound around it, each once, and what its body was handed where
it calls through it. What a body reads is said here by where its binders stand and not by a walk.
-/
namespace SoutherNative.Closures
open Transport Nodes

inductive Stands : List ℕ → Bool → Node → List ℕ → Bool → Node → Prop
  | here (place : List ℕ) (step : Bool) (node : Node) : Stands place step node place step node
  | under {place at' : List ℕ} {step step' : Bool} {core : Core} {ty : Ty} {children : List Node}
    {child : ℕ} {node stood : Node} (hnode : children[child]? = some node)
    (hruns : child ∉ unrunAt step core ty children)
    (h : Stands (place ++ [child]) (stepAt step core ty children child) node at' step' stood) :
    Stands place step (.node core ty children) at' step' stood

/-- A node reads a binding from outside it: a read of it stands lowered in it, under no binder of
    its own. -/
inductive Reads : Bool → Node → Capture → Prop
  | here (step : Bool) (binding : ℕ) (ty : Ty) (children : List Node) :
    Reads step (.node (.read binding) ty children) ⟨binding, ty⟩
  | under {step : Bool} {core : Core} {ty : Ty} {children : List Node} {child : ℕ} {node : Node}
    {read : Capture} (hnode : children[child]? = some node)
    (hruns : child ∉ unrunAt step core ty children) (hbound : read.binding ∉ boundAt core child)
    (h : Reads (stepAt step core ty children child) node read) :
    Reads step (.node core ty children) read

theorem exists_under {told : ℕ → Node → Prop} {under : ℕ → List Node → Prop}
    (hnil : ∀ child, ¬under child []) (hcons : ∀ child node rest,
      under child (node :: rest) ↔ told child node ∨ under (child + 1) rest)
    {child : ℕ} {children : List Node} : under child children ↔
      ∃ at' node, children[at']? = some node ∧ told (child + at') node := by
  induction children generalizing child with
  | nil => simp [hnil]
  | cons node rest ih =>
    rw [hcons, ih]
    constructor
    · rintro (hnode | ⟨at', later, hat, htold⟩)
      · exact ⟨0, node, rfl, hnode⟩
      · rw [Nat.add_right_comm] at htold
        exact ⟨at' + 1, later, hat, htold⟩
    · rintro ⟨at', later, hat, htold⟩
      cases at' with
      | zero =>
        cases hat
        exact .inl htold
      | succ at' =>
        rw [← Nat.add_assoc, Nat.add_right_comm] at htold
        exact .inr ⟨at', later, hat, htold⟩

section Under

variable {step : Bool} {core : Core} {ty : Ty} {siblings : List Node} {unrun : List ℕ} {child : ℕ}
  {children : List Node} {planner : Planner}

theorem mem_readsUnder {read : Capture} :
    read ∈ readsUnder step core ty siblings unrun child children ↔
      ∃ at' node, children[at']? = some node ∧ child + at' ∉ unrun ∧
        read.binding ∉ boundAt core (child + at') ∧
        read ∈ reads (stepAt step core ty siblings (child + at')) node := by
  refine @exists_under
    (fun child node => child ∉ unrun ∧ read.binding ∉ boundAt core child ∧
      read ∈ reads (stepAt step core ty siblings child) node)
    (fun child children => read ∈ readsUnder step core ty siblings unrun child children)
    (fun _ => List.not_mem_nil) ?_ child children
  intro child node rest
  rw [readsUnder, List.mem_append]
  refine or_congr_left ?_
  by_cases hunrun : child ∈ unrun
  · simp [hunrun]
  · rw [if_neg hunrun, without, List.mem_filter]
    simp [hunrun, and_comm]

theorem mem_sitesUnder {place : List ℕ} {entry : List ℕ × Site} :
    entry ∈ sitesUnder planner place step core ty siblings unrun child children ↔
      ∃ at' node, children[at']? = some node ∧ child + at' ∉ unrun ∧
        entry ∈ sitesIn planner (place ++ [child + at'])
          (stepAt step core ty siblings (child + at')) node := by
  refine @exists_under
    (fun child node => child ∉ unrun ∧ entry ∈ sitesIn planner (place ++ [child])
      (stepAt step core ty siblings child) node)
    (fun child children => entry ∈ sitesUnder planner place step core ty siblings unrun child
      children)
    (fun _ => List.not_mem_nil) ?_ child children
  intro child node rest
  rw [sitesUnder, List.mem_append]
  refine or_congr_left ?_
  by_cases hunrun : child ∈ unrun
  · simp [hunrun]
  · simp [hunrun]

theorem callsHandedUnder_iff :
    callsHandedUnder planner step core ty siblings unrun child children = true ↔
      ∃ at' node, children[at']? = some node ∧ child + at' ∉ unrun ∧
        callsHanded planner (stepAt step core ty siblings (child + at')) node = true := by
  refine @exists_under
    (fun child node => child ∉ unrun ∧
      callsHanded planner (stepAt step core ty siblings child) node = true)
    (fun child children =>
      callsHandedUnder planner step core ty siblings unrun child children = true)
    (fun _ h => Bool.false_ne_true h) ?_ child children
  intro child node rest
  rw [callsHandedUnder, Bool.or_eq_true]
  refine or_congr_left ?_
  by_cases hunrun : child ∈ unrun
  · simp [hunrun]
  · simp [hunrun]

end Under

theorem mem_reads : ∀ (node : Node) (step : Bool) (read : Capture),
    read ∈ reads step node ↔ Reads step node read
  | .node core ty children, step, read => by
    rw [reads, List.mem_append, mem_readsUnder]
    constructor
    · rintro (hread | ⟨child, node, hnode, hruns, hbound, hread⟩)
      · cases core with
        | read binding =>
          rw [List.mem_singleton.mp hread]
          exact .here step binding ty children
        | _ => cases hread
      · have hmem := List.mem_of_getElem? hnode
        rw [Nat.zero_add] at hruns hbound hread
        exact .under hnode hruns hbound ((mem_reads node _ read).mp hread)
    · intro h
      cases h with
      | here => exact .inl (.head _)
      | @under _ _ _ _ child node _ hnode hruns hbound h =>
        have hmem := List.mem_of_getElem? hnode
        refine .inr ⟨child, node, hnode, ?_⟩
        rw [Nat.zero_add]
        exact ⟨hruns, hbound, (mem_reads node _ read).mpr h⟩
  termination_by node => sizeOf node

/-- A body calls through what it was handed where such a call stands lowered in it. -/
theorem callsHanded_iff {planner : Planner} : ∀ (node : Node) (step : Bool) (place : List ℕ),
    callsHanded planner step node = true ↔ ∃ at' step' declared ty children,
      declared ∈ planner.environment ∧
      Stands place step node at' step' (.node (.call (.behavior declared)) ty children)
  | .node core ty children, step, place => by
    rw [callsHanded, Bool.or_eq_true, callsHandedUnder_iff]
    constructor
    · rintro (hcall | ⟨child, node, hnode, hruns, hcalls⟩)
      · cases core with
        | call reaches =>
          cases reaches with
          | behavior declared =>
            exact ⟨place, step, declared, ty, children, of_decide_eq_true hcall, .here _ _ _⟩
          | _ => cases hcall
        | _ => cases hcall
      · have hmem := List.mem_of_getElem? hnode
        rw [Nat.zero_add] at hruns hcalls
        obtain ⟨at', step', declared, callTy, arguments, hdeclared, hstands⟩ :=
          (callsHanded_iff node _ (place ++ [child])).mp hcalls
        exact ⟨at', step', declared, callTy, arguments, hdeclared, .under hnode hruns hstands⟩
    · rintro ⟨at', step', declared, callTy, arguments, hdeclared, hstands⟩
      cases hstands with
      | here => exact .inl (decide_eq_true hdeclared)
      | @under _ _ _ _ _ _ _ child node _ hnode hruns h =>
        have hmem := List.mem_of_getElem? hnode
        refine .inr ⟨child, node, hnode, ?_⟩
        rw [Nat.zero_add]
        exact ⟨hruns, (callsHanded_iff node _ (place ++ [child])).mpr
          ⟨at', step', declared, callTy, arguments, hdeclared, h⟩⟩
  termination_by node => sizeOf node

/-- What is planned under a place is every block of a function type that stands lowered there and is
    no walk's step. -/
theorem mem_sitesIn {planner : Planner} {entry : List ℕ × Site} :
    ∀ (node : Node) (step : Bool) (place : List ℕ), entry ∈ sitesIn planner place step node ↔
      ∃ site parameters takes answers children, Stands place step node entry.1 false
          (.node (.block site parameters) (.fn takes answers) children) ∧
        entry.2 = siteOf planner parameters children (.block site parameters) (.fn takes answers)
          takes answers
  | .node core ty children, step, place => by
    rw [sitesIn, List.mem_append, mem_sitesUnder]
    constructor
    · rintro (⟨child, node, hnode, hruns, hentry⟩ | hplanned)
      · have hmem := List.mem_of_getElem? hnode
        rw [Nat.zero_add] at hruns hentry
        obtain ⟨site, parameters, takes, answers, body, hstands, heq⟩ :=
          (mem_sitesIn node _ (place ++ [child])).mp hentry
        exact ⟨site, parameters, takes, answers, body, .under hnode hruns hstands, heq⟩
      · rcases planned_cases planner place step core ty children with
          hnone | ⟨rfl, site, parameters, takes, answers, rfl, rfl, hone⟩
        · rw [hnone] at hplanned
          cases hplanned
        · rw [hone, List.mem_singleton] at hplanned
          subst hplanned
          exact ⟨site, parameters, takes, answers, children, .here _ _ _, rfl⟩
    · rintro ⟨site, parameters, takes, answers, body, hstands, heq⟩
      obtain ⟨at', planned⟩ := entry
      cases hstands with
      | here =>
        cases heq
        exact .inr (.head _)
      | @under _ _ _ _ _ _ _ child node _ hnode hruns h =>
        have hmem := List.mem_of_getElem? hnode
        refine .inl ⟨child, node, hnode, ?_⟩
        rw [Nat.zero_add]
        exact ⟨hruns, (mem_sitesIn node _ (place ++ [child])).mpr
          ⟨site, parameters, takes, answers, body, h, heq⟩⟩
  termination_by node => sizeOf node

def firstReads : List Capture → List Capture
  | [] => []
  | read :: rest => read :: (firstReads rest).filter fun later => later.binding ≠ read.binding

theorem all_firstReads (bound : Finset ℕ) (reached : Reached) (reads : List Capture) :
    (reached.all bound reads).bindings = reached.bindings ++ (firstReads reads).filter fun read =>
      read.binding ∉ bound ∧ read.binding ∉ reached.bindings.map Capture.binding := by
  induction reads generalizing reached with
  | nil => simp [Reached.all, firstReads]
  | cons read rest ih =>
    rw [Reached.all, List.foldl_cons, ← Reached.all, ih, firstReads, List.filter_cons, Reached.binding]
    split
    · rename_i hnew
      rw [if_pos (decide_eq_true hnew), List.append_assoc, List.filter_filter]
      refine congrArg (fun later => reached.bindings ++ read :: later) (List.filter_congr ?_)
      intro later _
      simp only [List.map_append, List.mem_append, List.map_cons, List.map_nil, List.mem_singleton]
      grind
    · rename_i hold
      rw [if_neg (by simpa using hold), List.filter_filter]
      refine congrArg (reached.bindings ++ ·) (List.filter_congr ?_)
      intro later _
      grind

theorem firsts_eq (reads : List Capture) : firsts reads = firstReads reads := by
  rw [firsts, all_firstReads]
  simp [Reached.default]

theorem firstReads_once (reads : List Capture) : ((firstReads reads).map Capture.binding).Nodup := by
  induction reads with
  | nil => exact List.nodup_nil
  | cons read rest ih =>
    rw [firstReads, List.map_cons, List.nodup_cons]
    refine ⟨?_, (List.filter_sublist.map Capture.binding).nodup ih⟩
    intro hmem
    obtain ⟨later, hlater, heq⟩ := List.mem_map.mp hmem
    exact absurd heq (of_decide_eq_true (List.mem_filter.mp hlater).2)

/-- What a plan is to say of the block it is of: what it carries is what the block reads from outside
    itself, at a type it is read at, each binding once and in the order they are first read; it
    carries what the body was handed where a call through that stands in it; and a block whose
    function never runs carries nothing. -/
structure Plans (environment : List String) (site : ℕ) (plan : Site) : Prop where
  once : (plan.captures.map Capture.binding).Nodup
  ordered : plan.captures = firstReads
    (reads false (.node (.block site plan.parameters) (.fn plan.takes plan.answers) plan.body))
  reads : ∀ binding, binding ∈ plan.captures.map Capture.binding ↔ ∃ ty, Reads false
    (.node (.block site plan.parameters) (.fn plan.takes plan.answers) plan.body) ⟨binding, ty⟩
  carries : plan.environment = some environment ∨ plan.environment = none
  calls : plan.environment.isSome ↔ ∃ place step declared ty children, declared ∈ environment ∧
    Stands [] false (.node (.block site plan.parameters) (.fn plan.takes plan.answers) plan.body)
      place step (.node (.call (.behavior declared)) ty children)
  runs : plan.runs = !neverRuns (.fn plan.takes plan.answers)
  nothing : plan.runs = false → ∀ body, plan.body = [body] →
    plan.captures = [] ∧ plan.environment = none

theorem siteOf_plans (planner : Planner) (site : ℕ) (parameters : List ℕ) (children : List Node)
    (takes : List Ty) (answers : Ty) : Plans planner.environment site (siteOf planner parameters
      children (.block site parameters) (.fn takes answers) takes answers) := by
  have hreads : reads false (.node (.block site parameters) (.fn takes answers) children) =
      readsUnder false (.block site parameters) (.fn takes answers) children
        (unrunAt false (.block site parameters) (.fn takes answers) children) 0 children := rfl
  have hcalls : callsHanded planner false
      (.node (.block site parameters) (.fn takes answers) children) =
      callsHandedUnder planner false (.block site parameters) (.fn takes answers) children
        (unrunAt false (.block site parameters) (.fn takes answers) children) 0 children :=
    Bool.false_or _
  have henvironment : (siteOf planner parameters children (.block site parameters) (.fn takes answers)
      takes answers).environment = if callsHanded planner false
        (.node (.block site parameters) (.fn takes answers) children)
      then some planner.environment else none := by
    rw [hcalls]
    rfl
  have hcaptures : (siteOf planner parameters children (.block site parameters) (.fn takes answers)
      takes answers).captures = firsts (reads false
        (.node (.block site parameters) (.fn takes answers) children)) := rfl
  refine ⟨?_, ?_, ?_, ?_, ?_, rfl, ?_⟩
  · rw [hcaptures, firsts_eq]
    exact firstReads_once _
  · rw [hcaptures]
    exact firsts_eq _
  · intro binding
    rw [hcaptures, mem_firsts]
    constructor
    · intro hbinding
      obtain ⟨read, hread, rfl⟩ := List.mem_map.mp hbinding
      exact ⟨read.ty, (mem_reads _ _ _).mp hread⟩
    · rintro ⟨ty, hread⟩
      exact List.mem_map_of_mem ((mem_reads _ _ _).mpr hread)
  · rw [henvironment]
    split
    · exact .inl rfl
    · exact .inr rfl
  · rw [henvironment]
    refine Iff.trans ?_ (callsHanded_iff
      (.node (.block site parameters) (.fn takes answers) children) false [])
    cases callsHanded planner false (.node (.block site parameters) (.fn takes answers) children) <;>
      simp
  · intro hruns body hbody
    have hnever : neverRuns (.fn takes answers) = true := by
      simpa [siteOf, Planner.site] using hruns
    have hbody : children = [body] := hbody
    have hunrun : unrunAt false (.block site parameters) (.fn takes answers) children = [0] :=
      if_pos hnever
    rw [hcaptures, henvironment, hcalls, hreads, hunrun, hbody]
    exact ⟨rfl, rfl⟩

/-- Every block of a function type that stands lowered in a body and is no walk's step is planned, as
    what it is and with what it is to carry, and is found by the place it stands at; nothing else is
    planned, and no two places are found as one site. -/
theorem plans_exact {bodies : List Standing} {found : ClosureSites}
    (h : ClosureSites.of bodies = .ok found) :
    (∀ number standing, bodies[number]? = some standing →
      ∀ place site parameters takes answers children,
        Stands [number] false standing.node place false
          (.node (.block site parameters) (.fn takes answers) children) →
        ∃ id plan, found.at place = some (id, plan) ∧ plan.carrier = standing.carrier ∧
          plan.parameters = parameters ∧ plan.body = children ∧ plan.takes = takes ∧
          plan.answers = answers ∧ Plans standing.environment site plan) ∧
    (∀ place id plan, found.at place = some (id, plan) →
      ∃ number standing site, bodies[number]? = some standing ∧
        Stands [number] false standing.node place false
          (.node (.block site plan.parameters) (.fn plan.takes plan.answers) plan.body)) ∧
    ∀ place other id plan plan', found.at place = some (id, plan) →
      found.at other = some (id, plan') → place = other := by
  obtain ⟨-, rfl⟩ := of_eq_ok.mp h
  have hnodup := sitesOf_nodup bodies 0
  refine ⟨?_, ?_, ?_⟩
  · intro number standing hstanding place site parameters takes answers children hstands
    have hmem : (place, siteOf ⟨standing.carrier, standing.environment, true⟩ parameters children
        (.block site parameters) (.fn takes answers) takes answers) ∈ sitesOf 0 bodies := by
      refine mem_sitesOf.mpr ⟨number, standing, hstanding, ?_⟩
      rw [Nat.zero_add]
      exact (mem_sitesIn standing.node false [number]).mpr
        ⟨site, parameters, takes, answers, children, hstands, rfl⟩
    obtain ⟨id, hat, -⟩ := @at_of_mem ⟨sitesOf 0 bodies, none⟩ hnodup _ _ hmem
    have hplans := siteOf_plans ⟨standing.carrier, standing.environment, true⟩ site parameters
      children takes answers
    exact ⟨id, _, hat, rfl, rfl, rfl, rfl, rfl, hplans⟩
  · intro place id plan hat
    have hmem := List.mem_of_getElem? (mem_of_at hat)
    obtain ⟨number, standing, hstanding, hentry⟩ := mem_sitesOf.mp hmem
    rw [Nat.zero_add] at hentry
    obtain ⟨site, parameters, takes, answers, children, hstands, rfl⟩ :=
      (mem_sitesIn standing.node false [number]).mp hentry
    exact ⟨number, standing, site, hstanding, hstands⟩
  · intro place other id plan plan' hat hat'
    have hboth := (mem_of_at hat).symm.trans (mem_of_at hat')
    cases hboth
    rfl

def nested : List Standing :=
  [⟨"module", [], .node (.block 7 [0]) (.fn [.prim .int] (.fn [.prim .int] (.prim .int)))
    [.node (.block 8 [1]) (.fn [.prim .int] (.prim .int)) [.node (.read 0) (.prim .int) []]]⟩]

theorem plans_exact_nested : ∃ found, ClosureSites.of nested = .ok found ∧
    (∃ id plan, found.at [0, 0] = some (id, plan) ∧ Plans [] 8 plan) ∧
    found.at [1] = none := by
  have hof : ∃ found, ClosureSites.of nested = .ok found ∧ found.at [1] = none := ⟨_, rfl, rfl⟩
  obtain ⟨found, hfound, hnone⟩ := hof
  obtain ⟨id, plan, hat, -, -, -, -, -, hplans⟩ := (plans_exact hfound).1 0 _ rfl [0, 0] 8 [1] _ _ _
    (@Stands.under [0] _ _ _ _ _ _ 0 _ _ rfl (by decide) (.here _ _ _))
  exact ⟨found, hfound, ⟨id, plan, hat, hplans⟩, hnone⟩

/-- Bodies are refused for a number where a block is of no function type or two blocks written in
    them, run or not, claim one. -/
theorem numbered_iff (bodies : List Standing) : ClosureSites.numberedOf bodies = .ok () ↔
    (∀ standing ∈ bodies, functions false standing.node = true) ∧ (numbersOf bodies).Nodup := by
  constructor
  · intro h
    obtain ⟨found, hfound, -⟩ := Widening.of_map h
    obtain ⟨hfunctions, rfl, honce⟩ := walkBodies_ok hfound
    refine ⟨hfunctions, (honce ⟨?_, List.nodup_nil⟩).numbers _ rfl⟩
    rintro numbers ⟨⟩
    exact List.nodup_nil
  · rintro ⟨hfunctions, hnodup⟩
    obtain ⟨found, hfound⟩ := @walkBodies_ends _ 0 ⟨[], some []⟩ hfunctions
      ⟨by rintro _ ⟨⟩; exact hnodup, sitesOf_nodup bodies 0⟩
    rw [ClosureSites.numberedOf, hfound]
    rfl

end SoutherNative.Closures
