import Mathlib
import SoutherNative.Specialize
import SoutherNative.Templates

set_option autoImplicit false

/-!
# What a copy's body writes

A helper's body is rewritten with what its variables came to where it is lowered. What is lowered is
told by types some of which are rewritten already and some of which are yet to be. A type no value
of which is made stays one, so what is left as it was written is nothing that is lowered after.
-/
namespace SoutherNative.Specialize
open Transport Nodes

mutual

def eachLowered (place : List ℕ) : Node → List (List ℕ × Node)
  | .node core ty children =>
    (place, .node core ty children) :: eachUnder place (neverLowered core ty children) 0 children

def eachUnder (place unrun : List ℕ) : ℕ → List Node → List (List ℕ × Node)
  | _, [] => []
  | child, node :: rest =>
    (if child ∈ unrun then [] else eachLowered (place ++ [child]) node) ++
      eachUnder place unrun (child + 1) rest

end

theorem neverRuns_applied (bound : Substitution) {ty : Ty} (h : neverRuns ty = true) :
    neverRuns (partlyApplied bound ty) = true := by
  cases ty with
  | fn takes answers =>
    rw [neverRuns, List.any_eq_true] at h
    obtain ⟨taken, hmem, htaken⟩ := h
    rw [partlyApplied, neverRuns, partlyAppliedAll_eq, assignedAll_eq, List.any_eq_true]
    refine ⟨assigned (left bound) taken, List.mem_map_of_mem hmem, ?_⟩
    rw [of_decide_eq_true htaken]
    rfl
  | _ => cases h

theorem hasNoValue_applied (bound : Substitution) {ty : Ty} (h : ty.hasNoValue = true) :
    (partlyApplied bound ty).hasNoValue = true := by
  cases ty with
  | nothing | never => rfl
  | _ => cases h

theorem holdsNoValue_applied (bound : Substitution) {ty : Ty} (h : ty.holdsNoValue = true) :
    (partlyApplied bound ty).holdsNoValue = true := by
  cases ty with
  | option held | list held | set held => exact @hasNoValue_applied bound held h
  | map key value =>
    rw [Ty.holdsNoValue, Bool.or_eq_true] at h
    rw [partlyApplied, Ty.holdsNoValue, Bool.or_eq_true]
    exact h.imp (hasNoValue_applied bound) (hasNoValue_applied bound)
  | _ => cases h

theorem findIdxs_mono {α β : Type} {p : α → Bool} {q : β → Bool} {xs : List α} {ys : List β}
    {i : ℕ} (hlength : ys.length = xs.length)
    (h : ∀ (hx : i < xs.length) (hy : i < ys.length), p xs[i] = true → q ys[i] = true)
    (hi : i ∈ xs.findIdxs p) : i ∈ ys.findIdxs q := by
  rw [List.mem_findIdxs_iff_exists_getElem_pos] at hi ⊢
  obtain ⟨hx, hp⟩ := hi
  exact ⟨hlength ▸ hx, h hx (hlength ▸ hx) hp⟩

theorem settleUnder_length (bound : Substitution) (unrun : List ℕ) (child : ℕ)
    (children : List Node) : (settleUnder bound unrun child children).length = children.length := by
  induction children generalizing child with
  | nil => rfl
  | cons node rest ih => rw [settleUnder, List.length_cons, List.length_cons, ih]

theorem settleUnder_get (bound : Substitution) (unrun : List ℕ) (child : ℕ)
    (children : List Node) (i : ℕ) : (settleUnder bound unrun child children)[i]? =
      children[i]?.map fun node => if child + i ∈ unrun then node else settle bound node := by
  induction children generalizing child i with
  | nil => rfl
  | cons node rest ih =>
    rw [settleUnder]
    cases i with
    | zero => rfl
    | succ i =>
      rw [List.getElem?_cons_succ, List.getElem?_cons_succ, ih, Nat.add_right_comm, Nat.add_assoc]

theorem settle_ty (bound : Substitution) (node : Node) :
    (settle bound node).ty = partlyApplied bound node.ty := by
  cases node
  rw [settle]
  rfl

/-- What a node never runs by the types it was written at it never runs by those it is rewritten
at. -/
theorem neverLowered_retyped (bound : Substitution) {core : Core} {ty : Ty} {children : List Node}
    {i : ℕ} (h : i ∈ neverLowered core ty children) :
    i ∈ neverLowered (core.retyped (partlyApplied bound)) (partlyApplied bound ty) children := by
  cases core with
  | matchOn arms =>
    cases children with
    | nil => exact h
    | cons subject rest =>
      rw [Core.retyped, neverLowered, List.findIdxs_map]
      exact h
  | call reaches => cases reaches <;> exact h
  | block site parameters =>
    rw [neverLowered] at h
    rw [Core.retyped, neverLowered]
    split_ifs at h with hruns
    · rw [if_pos (neverRuns_applied bound hruns)]
      exact h
    · cases h
  | _ => cases children <;> exact h

/-- What a node never runs as its children were written it never runs as they are rewritten. -/
theorem neverLowered_settled (bound : Substitution) {core : Core} {ty : Ty} {children : List Node}
    {i : ℕ} (h : i ∈ neverLowered core ty children) :
    i ∈ neverLowered core ty (settleUnder bound (neverLowered core ty children) 0 children) := by
  cases core with
  | matchOn arms =>
    cases children with
    | nil => exact h
    | cons subject rest =>
      rw [neverLowered] at h
      obtain ⟨arm, harm, rfl⟩ := List.mem_map.mp h
      rw [settleUnder, if_neg, neverLowered]
      · refine List.mem_map.mpr ⟨arm, findIdxs_mono rfl (fun hx _ hentered => ?_) harm, rfl⟩
        rw [neverEntered, Bool.and_eq_true] at hentered ⊢
        rw [settle_ty]
        exact ⟨holdsNoValue_applied bound hentered.1, hentered.2⟩
      · rw [neverLowered]
        simp
  | call reaches =>
    have hcall : ∀ {unrun : List ℕ}, i ∈ unrun →
        i ∈ children.findIdxs (fun argument => neverRuns argument.ty) →
        i ∈ (settleUnder bound unrun 0 children).findIdxs fun argument => neverRuns argument.ty := by
      intro unrun hunrun hfound
      refine findIdxs_mono (settleUnder_length bound unrun 0 children) (fun hx hy hruns => ?_) hfound
      have hget := settleUnder_get bound unrun 0 children i
      rw [List.getElem?_eq_getElem hx, List.getElem?_eq_getElem hy, Option.map_some, Nat.zero_add,
        if_pos hunrun] at hget
      rw [Option.some.inj hget]
      exact hruns
    cases reaches with
    | kernel => cases h
    | _ => exact hcall h h
  | block site parameters => exact h
  | _ => cases children <;> cases h

theorem KernelFact.types_retyped (f : Ty → Ty) (fact : KernelFact) :
    (fact.retyped f).types = fact.types.map f := by
  cases fact with
  | orderingSubject ty ordering => cases ordering <;> rfl
  | _ => rfl

theorem Reaches.types_retyped (f : Ty → Ty) (reaches : Reaches) :
    (reaches.retyped f).types = reaches.types.map f := by
  cases reaches with
  | kernel key takes fact =>
    rw [Reaches.retyped, Reaches.types, Reaches.types, List.map_append,
      KernelFact.types_retyped]
  | _ => rfl

theorem Reading.types_retyped (f : Ty → Ty) (reading : Reading) :
    (reading.retyped f).types = reading.types.map f := by
  cases reading <;> rfl

theorem Core.types_retyped (f : Ty → Ty) (core : Core) :
    (core.retyped f).types = core.types.map f := by
  cases core with
  | binary op reading ordering =>
    rw [Core.retyped, Core.types, Core.types, List.map_append, Reading.types_retyped]
    cases ordering <;> rfl
  | matchOn arms =>
    rw [Core.retyped, Core.types, Core.types, List.filterMap_map, List.map_filterMap]
    apply List.filterMap_congr
    intro arm _
    cases harm : arm.binding with
    | none => simp [harm]
    | some binding => cases binding <;> simp [harm, ArmBinding.retyped, ArmBinding.readAs]
  | call reaches => exact Reaches.types_retyped f reaches
  | _ => rfl

mutual

/-- A variable a type writes once its variables are replaced is one nothing is bound to, or is
written in what one of them came to. -/
theorem numbers_assigned {types : ℕ → Ty} {n : ℕ} (ty : Ty) :
    n ∈ numbers (assigned types ty) ↔ ∃ m ∈ numbers ty, n ∈ numbers (types m) := by
  cases ty with
  | var m => simp [assigned, numbers]
  | option held | list held | set held => simp [assigned, numbers, numbers_assigned held]
  | tuple members => simp [assigned, numbers, numbersAll_assigned members]
  | fn takes answers =>
    simp [assigned, numbers, numbersAll_assigned takes, numbers_assigned answers, or_and_right,
      exists_or]
  | map key value =>
    simp [assigned, numbers, numbers_assigned key, numbers_assigned value, or_and_right, exists_or]
  | prim _ | ref _ | union _ | nothing | never => simp [assigned, numbers]

theorem numbersAll_assigned {types : ℕ → Ty} {n : ℕ} (tys : List Ty) :
    n ∈ numbersAll (assignedAll types tys) ↔ ∃ m ∈ numbersAll tys, n ∈ numbers (types m) := by
  cases tys with
  | nil => simp [assignedAll, numbersAll]
  | cons ty rest =>
    simp [assignedAll, numbersAll, numbers_assigned ty, numbersAll_assigned rest, or_and_right,
      exists_or]

end

/-- Each variable that is still written in its own place is one nothing is bound to. -/
theorem numbers_left (bound : Substitution) (ty : Ty) {n : ℕ}
    (h : n ∈ numbers (partlyApplied bound ty)) :
    (n ∈ numbers ty ∧ cameTo bound n = none) ∨
      ∃ m ∈ numbers ty, ∃ found, cameTo bound m = some found ∧ n ∈ numbers found := by
  rw [partlyApplied_eq] at h
  obtain ⟨m, hm, hn⟩ := (numbers_assigned ty).mp h
  rw [left] at hn
  cases hfound : cameTo bound m with
  | none =>
    rw [hfound] at hn
    obtain rfl := List.mem_singleton.mp hn
    exact .inl ⟨hm, hfound⟩
  | some found =>
    rw [hfound] at hn
    exact .inr ⟨m, hm, found, hfound, hn⟩

mutual

/-- Every node lowered of a body that is rewritten is one that was lowered of it before, in the same
place, with each of its types rewritten. -/
theorem settle_lowered (bound : Substitution) (place : List ℕ) (node : Node) {at' : List ℕ}
    {after : Node} (h : (at', after) ∈ eachLowered place (settle bound node)) :
    ∃ before, (at', before) ∈ eachLowered place node ∧
      after.types = before.types.map (partlyApplied bound) := by
  cases node with
  | node core ty children =>
    rw [settle, eachLowered, List.mem_cons] at h
    rw [eachLowered]
    rcases h with hhere | hunder
    · obtain ⟨rfl, rfl⟩ := Prod.mk.inj hhere
      refine ⟨_, List.mem_cons_self, ?_⟩
      rw [Node.types, Node.types, Core.types_retyped, List.map_cons]
    · obtain ⟨before, hmem, htypes⟩ := settleUnder_lowered bound place _ _ 0 children
        (fun i hi => neverLowered_settled bound hi)
        (fun i hi => neverLowered_settled bound (neverLowered_retyped bound hi)) hunder
      exact ⟨before, List.mem_cons_of_mem _ hmem, htypes⟩

/-- The same of children: what was left of them, and what was not lowered, is not lowered after. -/
theorem settleUnder_lowered (bound : Substitution) (place settled unrun : List ℕ)
    {unrunAfter : List ℕ} (child : ℕ) (children : List Node)
    (hsettled : ∀ i ∈ settled, i ∈ unrunAfter) (hunrun : ∀ i ∈ unrun, i ∈ unrunAfter)
    {at' : List ℕ} {after : Node}
    (h : (at', after) ∈ eachUnder place unrunAfter child
      (settleUnder bound settled child children)) :
    ∃ before, (at', before) ∈ eachUnder place unrun child children ∧
      after.types = before.types.map (partlyApplied bound) := by
  cases children with
  | nil => cases h
  | cons node rest =>
    rw [settleUnder, eachUnder, List.mem_append] at h
    rw [eachUnder]
    rcases h with hhere | hrest
    · by_cases hafter : child ∈ unrunAfter
      · rw [if_pos hafter] at hhere
        cases hhere
      · rw [if_neg hafter, if_neg fun hin => hafter (hsettled child hin)] at hhere
        obtain ⟨before, hmem, htypes⟩ := settle_lowered bound (place ++ [child]) node hhere
        refine ⟨before, List.mem_append_left _ ?_, htypes⟩
        rw [if_neg fun hin => hafter (hunrun child hin)]
        exact hmem
    · obtain ⟨before, hmem, htypes⟩ :=
        settleUnder_lowered bound place settled unrun (child + 1) rest hsettled hunrun hrest
      exact ⟨before, List.mem_append_right _ hmem, htypes⟩

end

/-- Rewriting a body rewrites every node that is lowered of it after: each of its types is the one
written before with every variable replaced by what it came to, and a variable it still writes in
its own place is one nothing is bound to. What the rewriting leaves out is never lowered after. -/
theorem settle_reaches (body : Node) (bound : Substitution) :
    (∀ place after, (place, after) ∈ eachLowered [] (settle bound body) →
      ∃ before, (place, before) ∈ eachLowered [] body ∧
        after.types = before.types.map (partlyApplied bound)) ∧
    (∀ ty n, n ∈ numbers (partlyApplied bound ty) →
      (n ∈ numbers ty ∧ cameTo bound n = none) ∨
        ∃ m ∈ numbers ty, ∃ found, cameTo bound m = some found ∧ n ∈ numbers found) ∧
    ∀ (core : Core) (ty : Ty) (children : List Node),
      let core := core.retyped (partlyApplied bound)
      let ty := partlyApplied bound ty
      ∀ place ∈ neverLowered core ty children,
        place ∈ neverLowered core ty (settleUnder bound (neverLowered core ty children) 0 children) :=
  ⟨fun _ _ => settle_lowered bound [] body, fun ty _ => numbers_left bound ty,
    fun _ _ _ _ => neverLowered_settled bound⟩

end SoutherNative.Specialize
