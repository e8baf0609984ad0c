import Mathlib
import SoutherNative.Specialize

set_option autoImplicit false

/-!
# Which types a call settles

What `binds` finds of a template and a type: the one assignment of types to the variables the
template writes that makes the two the same, where there is one. The types a call is read at may
write variables of the body it stands in, and what is found of them stays found when those are
replaced.
-/
namespace SoutherNative.Specialize
open Transport Nodes

def cameTo (bound : Substitution) (n : ℕ) : Option Ty := bound[n]?.join

mutual

/-- `ty` with each variable replaced by what it came to: one nothing bound is left where `leaving`
says so, and no type is given else. -/
def replaced (bound : Substitution) (leaving : Bool) : Ty → Option Ty
  | .var n =>
    match cameTo bound n with
    | some found => some found
    | none => if leaving then some (.var n) else none
  | .option held => (replaced bound leaving held).map .option
  | .list held => (replaced bound leaving held).map .list
  | .set held => (replaced bound leaving held).map .set
  | .tuple members => (replacedAll bound leaving members).map .tuple
  | .fn takes answers => do
    let takes ← replacedAll bound leaving takes
    let answers ← replaced bound leaving answers
    return .fn takes answers
  | .map key value => do
    let key ← replaced bound leaving key
    let value ← replaced bound leaving value
    return .map key value
  | .prim p => some (.prim p)
  | .ref named => some (.ref named)
  | .union union => some (.union union)
  | .nothing => some .nothing
  | .never => some .never

def replacedAll (bound : Substitution) (leaving : Bool) : List Ty → Option (List Ty)
  | [] => some []
  | ty :: rest => do
    let ty ← replaced bound leaving ty
    let rest ← replacedAll bound leaving rest
    return ty :: rest

end

/-- `ty` with each variable replaced, where every variable it writes is bound. -/
def applied (bound : Substitution) (ty : Ty) : Option Ty := replaced bound false ty

mutual

def assigned (types : ℕ → Ty) : Ty → Ty
  | .var n => types n
  | .option held => .option (assigned types held)
  | .list held => .list (assigned types held)
  | .set held => .set (assigned types held)
  | .tuple members => .tuple (assignedAll types members)
  | .fn takes answers => .fn (assignedAll types takes) (assigned types answers)
  | .map key value => .map (assigned types key) (assigned types value)
  | .prim p => .prim p
  | .ref named => .ref named
  | .union union => .union union
  | .nothing => .nothing
  | .never => .never

def assignedAll (types : ℕ → Ty) : List Ty → List Ty
  | [] => []
  | ty :: rest => assigned types ty :: assignedAll types rest

end

def left (bound : Substitution) (n : ℕ) : Ty := (cameTo bound n).getD (.var n)

mutual

theorem partlyApplied_eq (bound : Substitution) (ty : Ty) :
    partlyApplied bound ty = assigned (left bound) ty := by
  cases ty with
  | var n => rfl
  | option held => rw [partlyApplied, assigned, partlyApplied_eq bound held]
  | list held => rw [partlyApplied, assigned, partlyApplied_eq bound held]
  | set held => rw [partlyApplied, assigned, partlyApplied_eq bound held]
  | tuple members => rw [partlyApplied, assigned, partlyAppliedAll_eq bound members]
  | fn takes answers =>
    rw [partlyApplied, assigned, partlyAppliedAll_eq bound takes, partlyApplied_eq bound answers]
  | map key value =>
    rw [partlyApplied, assigned, partlyApplied_eq bound key, partlyApplied_eq bound value]
  | prim _ | ref _ | union _ | nothing | never => rfl

theorem partlyAppliedAll_eq (bound : Substitution) (types : List Ty) :
    partlyAppliedAll bound types = assignedAll (left bound) types := by
  cases types with
  | nil => rfl
  | cons ty rest =>
    rw [partlyAppliedAll, assignedAll, partlyApplied_eq bound ty, partlyAppliedAll_eq bound rest]

end

mutual

theorem replaced_of {bound : Substitution} {leaving : Bool} {types : ℕ → Ty} (ty : Ty)
    (h : ∀ n ∈ numbers ty, replaced bound leaving (.var n) = some (types n)) :
    replaced bound leaving ty = some (assigned types ty) := by
  cases ty with
  | var n => exact h n (List.mem_singleton_self n)
  | option held => rw [replaced, replaced_of held h, assigned, Option.map_some]
  | list held => rw [replaced, replaced_of held h, assigned, Option.map_some]
  | set held => rw [replaced, replaced_of held h, assigned, Option.map_some]
  | tuple members => rw [replaced, replacedAll_of members h, assigned, Option.map_some]
  | fn takes answers =>
    rw [replaced, replacedAll_of takes fun n hn => h n (List.mem_append_left _ hn),
      replaced_of answers fun n hn => h n (List.mem_append_right _ hn), assigned]
    rfl
  | map key value =>
    rw [replaced, replaced_of key fun n hn => h n (List.mem_append_left _ hn),
      replaced_of value fun n hn => h n (List.mem_append_right _ hn), assigned]
    rfl
  | prim _ | ref _ | union _ | nothing | never => rfl

theorem replacedAll_of {bound : Substitution} {leaving : Bool} {types : ℕ → Ty} (tys : List Ty)
    (h : ∀ n ∈ numbersAll tys, replaced bound leaving (.var n) = some (types n)) :
    replacedAll bound leaving tys = some (assignedAll types tys) := by
  cases tys with
  | nil => rfl
  | cons ty rest =>
    rw [replacedAll, replaced_of ty fun n hn => h n (List.mem_append_left _ hn),
      replacedAll_of rest fun n hn => h n (List.mem_append_right _ hn), assignedAll]
    rfl

end

theorem applied_of {bound : Substitution} {types : ℕ → Ty} {ty : Ty}
    (h : ∀ n ∈ numbers ty, cameTo bound n = some (types n)) :
    applied bound ty = some (assigned types ty) := by
  apply replaced_of
  intro n hn
  rw [replaced, h n hn]

mutual

theorem assigned_inj {types others : ℕ → Ty} (ty : Ty) :
    assigned types ty = assigned others ty ↔ ∀ n ∈ numbers ty, types n = others n := by
  cases ty with
  | var n => simp [assigned, numbers]
  | option held | list held | set held => simp [assigned, numbers, assigned_inj held]
  | tuple members => simp [assigned, numbers, assignedAll_inj members]
  | fn takes answers =>
    simp [assigned, numbers, assignedAll_inj takes, assigned_inj answers, or_imp, forall_and]
  | map key value =>
    simp [assigned, numbers, assigned_inj key, assigned_inj value, or_imp, forall_and]
  | prim _ | ref _ | union _ | nothing | never => simp [assigned, numbers]

theorem assignedAll_inj {types others : ℕ → Ty} (tys : List Ty) :
    assignedAll types tys = assignedAll others tys ↔ ∀ n ∈ numbersAll tys, types n = others n := by
  cases tys with
  | nil => simp [assignedAll, numbersAll]
  | cons ty rest =>
    simp [assignedAll, numbersAll, assigned_inj ty, assignedAll_inj rest, or_imp, forall_and]

end

mutual

theorem assigned_var (ty : Ty) : assigned .var ty = ty := by
  cases ty with
  | var n => rfl
  | option held | list held | set held => simp [assigned, assigned_var held]
  | tuple members => simp [assigned, assignedAll_var members]
  | fn takes answers => simp [assigned, assignedAll_var takes, assigned_var answers]
  | map key value => simp [assigned, assigned_var key, assigned_var value]
  | prim _ | ref _ | union _ | nothing | never => rfl

theorem assignedAll_var (tys : List Ty) : assignedAll .var tys = tys := by
  cases tys with
  | nil => rfl
  | cons ty rest => simp [assignedAll, assigned_var ty, assignedAll_var rest]

end

theorem assigned_closed {types : ℕ → Ty} {ty : Ty} (h : isOpen ty = false) :
    assigned types ty = ty := by
  have hnone : numbers ty = [] := by simpa [isOpen] using h
  have heq := (@assigned_inj types .var ty).mpr (by simp [hnone])
  rw [heq, assigned_var]

mutual

/-- The variables of what a type's variables were given are given types in their turn. -/
theorem assigned_assigned (types others : ℕ → Ty) (ty : Ty) :
    assigned others (assigned types ty) = assigned (fun n => assigned others (types n)) ty := by
  cases ty with
  | var n => rfl
  | option held | list held | set held => simp [assigned, assigned_assigned types others held]
  | tuple members => simp [assigned, assignedAll_assignedAll types others members]
  | fn takes answers =>
    simp [assigned, assignedAll_assignedAll types others takes,
      assigned_assigned types others answers]
  | map key value =>
    simp [assigned, assigned_assigned types others key, assigned_assigned types others value]
  | prim _ | ref _ | union _ | nothing | never => rfl

theorem assignedAll_assignedAll (types others : ℕ → Ty) (tys : List Ty) :
    assignedAll others (assignedAll types tys) =
      assignedAll (fun n => assigned others (types n)) tys := by
  cases tys with
  | nil => rfl
  | cons ty rest =>
    simp [assignedAll, assigned_assigned types others ty, assignedAll_assignedAll types others rest]

end

def Keeps (types : ℕ → Ty) (bound : Substitution) : Prop :=
  ∀ n found, cameTo bound n = some found → types n = found

def Finds (bound : Substitution) (result : Option Substitution) (written : List ℕ)
    (property : (ℕ → Ty) → Prop) : Prop :=
  match result with
  | none => ∀ types, Keeps types bound → ¬property types
  | some found => (∀ types, Keeps types found ↔ Keeps types bound ∧ property types) ∧
      ∀ n, (cameTo found n).isSome = true ↔ (cameTo bound n).isSome = true ∨ n ∈ written

theorem Finds.congr {bound : Substitution} {result : Option Substitution} {written : List ℕ}
    {property other : (ℕ → Ty) → Prop} (h : Finds bound result written property)
    (hiff : ∀ types, property types ↔ other types) : Finds bound result written other := by
  rwa [show other = property from funext fun types => propext (hiff types).symm]

/-- What is found first is kept to by what is found next. -/
theorem Finds.bind {bound : Substitution} {result : Option Substitution} {written others : List ℕ}
    {property other : (ℕ → Ty) → Prop} {next : Substitution → Option Substitution}
    (h : Finds bound result written property)
    (hnext : ∀ found, Finds found (next found) others other) :
    Finds bound (result.bind next) (written ++ others) fun types => property types ∧ other types := by
  cases result with
  | none =>
    intro types hkeeps hboth
    exact h types hkeeps hboth.1
  | some found =>
    have hfound := hnext found
    rw [Option.bind_some]
    cases hresult : next found with
    | none =>
      rw [hresult] at hfound
      intro types hkeeps hboth
      exact hfound types ((h.1 types).mpr ⟨hkeeps, hboth.1⟩) hboth.2
    | some last =>
      rw [hresult] at hfound
      constructor
      · intro types
        rw [hfound.1, h.1, and_assoc]
      · intro n
        rw [hfound.2, h.2, List.mem_append, or_assoc]

theorem finds_same {bound : Substitution} {property : Prop} [Decidable property] :
    Finds bound (if property then some bound else none) [] fun _ => property := by
  split_ifs with h
  · exact ⟨fun types => by simp [h], fun n => by simp⟩
  · exact fun _ _ => h

theorem cameTo_append (bound : Substitution) (count n : ℕ) :
    cameTo (bound ++ List.replicate count none) n = cameTo bound n := by
  rw [cameTo, cameTo, List.getElem?_append]
  split_ifs with hlt
  · rfl
  · rw [List.getElem?_eq_none (Nat.not_lt.mp hlt), List.getElem?_replicate]
    split_ifs <;> rfl

theorem cameTo_set {bound : Substitution} {n : ℕ} (h : n < bound.length) (ty : Ty) (m : ℕ) :
    cameTo (bound.set n (some ty)) m = if m = n then some ty else cameTo bound m := by
  rw [cameTo, List.getElem?_set]
  split_ifs with hsame hother hother
  · rfl
  · exact absurd hsame.symm hother
  · exact absurd hother.symm hsame
  · rfl

theorem finds_var (bound : Substitution) (n : ℕ) (actual : Ty) :
    Finds bound (binds bound (.var n) actual) [n] fun types => types n = actual := by
  have hopen : isOpen (.var n) = true := rfl
  have hlength : n < (bound ++ List.replicate (n + 1 - bound.length) none).length := by
    rw [List.length_append, List.length_replicate]
    omega
  have hcame := cameTo_append bound (n + 1 - bound.length)
  rw [binds, if_neg (by rw [hopen]; decide)]
  generalize bound ++ List.replicate (n + 1 - bound.length) none = filled at hlength hcame
  dsimp only
  rw [← cameTo, hcame]
  cases hfound : cameTo bound n with
  | none =>
    dsimp only
    constructor
    · intro types
      constructor
      · intro hkeeps
        refine ⟨fun m found hm => hkeeps m found ?_, hkeeps n actual ?_⟩
        · rw [cameTo_set hlength, hcame, if_neg]
          · exact hm
          · rintro rfl
            rw [hfound] at hm
            cases hm
        · rw [cameTo_set hlength, if_pos rfl]
      · rintro ⟨hkeeps, htypes⟩ m found hm
        rw [cameTo_set hlength, hcame] at hm
        split_ifs at hm with hsame
        · rw [hsame, htypes]
          exact Option.some.inj hm
        · exact hkeeps m found hm
    · intro m
      rw [cameTo_set hlength, hcame, List.mem_singleton]
      split_ifs with hsame <;> simp [hsame]
  | some already =>
    dsimp only
    split_ifs with hsame
    · constructor
      · intro types
        constructor
        · intro hkeeps
          have hkept : Keeps types bound := fun m found hm => hkeeps m found ((hcame m).trans hm)
          exact ⟨hkept, (hkept n already hfound).trans hsame⟩
        · rintro ⟨hkeeps, -⟩ m found hm
          exact hkeeps m found ((hcame m).symm.trans hm)
      · intro m
        rw [hcame, List.mem_singleton]
        constructor
        · exact .inl
        · rintro (hm | rfl)
          · exact hm
          · rw [hfound]
            rfl
    · intro types hkeeps htypes
      exact hsame ((hkeeps n already hfound).symm.trans htypes)

theorem finds_closed (bound : Substitution) {template : Ty} (h : isOpen template = false)
    (actual : Ty) : Finds bound (binds bound template actual) (numbers template)
      fun types => assigned types template = actual := by
  have hnone : numbers template = [] := by simpa [isOpen] using h
  rw [binds.eq_def, if_pos h, hnone]
  exact finds_same.congr fun types => by rw [assigned_closed h]

mutual

theorem binds_finds (bound : Substitution) (template actual : Ty) :
    Finds bound (binds bound template actual) (numbers template)
      fun types => assigned types template = actual := by
  by_cases hopen : isOpen template = false
  · exact finds_closed bound hopen actual
  · cases template with
    | var n => exact finds_var bound n actual
    | option held =>
      rw [binds.eq_def, if_neg hopen]
      cases actual with
      | option also =>
        exact (binds_finds bound held also).congr fun types => by rw [assigned, Ty.option.injEq]
      | _ => exact fun types _ h => by simp [assigned] at h
    | list held =>
      rw [binds.eq_def, if_neg hopen]
      cases actual with
      | list also =>
        exact (binds_finds bound held also).congr fun types => by rw [assigned, Ty.list.injEq]
      | _ => exact fun types _ h => by simp [assigned] at h
    | set held =>
      rw [binds.eq_def, if_neg hopen]
      cases actual with
      | set also =>
        exact (binds_finds bound held also).congr fun types => by rw [assigned, Ty.set.injEq]
      | _ => exact fun types _ h => by simp [assigned] at h
    | tuple members =>
      rw [binds.eq_def, if_neg hopen]
      cases actual with
      | tuple also =>
        exact (bindsAll_finds bound members also).congr fun types => by
          rw [assigned, Ty.tuple.injEq]
      | _ => exact fun types _ h => by simp [assigned] at h
    | fn takes answers =>
      rw [binds.eq_def, if_neg hopen]
      cases actual with
      | fn takes' answers' =>
        exact ((bindsAll_finds bound takes takes').bind
          fun found => binds_finds found answers answers').congr fun types => by
            rw [assigned, Ty.fn.injEq]
      | _ => exact fun types _ h => by simp [assigned] at h
    | map key value =>
      rw [binds.eq_def, if_neg hopen]
      cases actual with
      | map key' value' =>
        exact ((binds_finds bound key key').bind
          fun found => binds_finds found value value').congr fun types => by
            rw [assigned, Ty.map.injEq]
      | _ => exact fun types _ h => by simp [assigned] at h
    | prim _ | ref _ | union _ | nothing | never => exact absurd rfl hopen

theorem bindsAll_finds (bound : Substitution) (templates actuals : List Ty) :
    Finds bound (bindsAll bound templates actuals) (numbersAll templates)
      fun types => assignedAll types templates = actuals := by
  cases templates with
  | nil =>
    cases actuals with
    | nil => exact ⟨fun types => by simp [assignedAll], fun n => by simp [numbersAll]⟩
    | cons actual actuals => exact fun types _ h => by simp [assignedAll] at h
  | cons template templates =>
    cases actuals with
    | nil => exact fun types _ h => by simp [assignedAll] at h
    | cons actual actuals =>
      rw [bindsAll]
      exact ((binds_finds bound template actual).bind
        fun found => bindsAll_finds found templates actuals).congr fun types => by
          rw [assignedAll, List.cons.injEq]

end

def settled (parameters : List Ty) (answer : Ty) (handed : List Ty) (answers : Ty) :
    Option Substitution :=
  (bindsAll [] parameters handed).bind fun bound => binds bound answer answers

def Fits (types : ℕ → Ty) (parameters : List Ty) (answer : Ty) (handed : List Ty) (answers : Ty) :
    Prop :=
  parameters.map (assigned types) = handed ∧ assigned types answer = answers

theorem assignedAll_eq (types : ℕ → Ty) (tys : List Ty) :
    assignedAll types tys = tys.map (assigned types) := by
  induction tys with
  | nil => rfl
  | cons ty rest ih => rw [assignedAll, ih, List.map_cons]

theorem numbersAll_eq (tys : List Ty) : numbersAll tys = tys.flatMap numbers := by
  induction tys with
  | nil => rfl
  | cons ty rest ih => rw [numbersAll, ih, List.flatMap_cons]

def written (parameters : List Ty) (answer : Ty) : List ℕ :=
  parameters.flatMap numbers ++ numbers answer

theorem settled_finds (parameters : List Ty) (answer : Ty) (handed : List Ty) (answers : Ty) :
    Finds [] (settled parameters answer handed answers) (written parameters answer)
      fun types => Fits types parameters answer handed answers := by
  have hfinds := (bindsAll_finds [] parameters handed).bind
    fun found => binds_finds found answer answers
  rw [numbersAll_eq] at hfinds
  exact hfinds.congr fun types => by rw [assignedAll_eq, Fits]

theorem keeps_nil (types : ℕ → Ty) : Keeps types [] := by
  intro n found h
  cases h

def kept (bound : Substitution) (n : ℕ) : Ty := (cameTo bound n).getD .never

theorem keeps_kept (bound : Substitution) : Keeps (kept bound) bound := by
  intro n found h
  rw [kept, h]
  rfl

section Settled

variable {parameters handed : List Ty} {answer answers : Ty} {bound : Substitution}

theorem settled_unique (h : settled parameters answer handed answers = some bound)
    {types : ℕ → Ty} (hfits : Fits types parameters answer handed answers) (n : ℕ) :
    cameTo bound n = if n ∈ written parameters answer then some (types n) else none := by
  have hfinds := settled_finds parameters answer handed answers
  rw [h] at hfinds
  have hkeeps := (hfinds.1 types).mpr ⟨keeps_nil types, hfits⟩
  have hbound := hfinds.2 n
  simp only [cameTo, List.getElem?_nil, Option.join_none, Option.isSome_none, Bool.false_eq_true,
    false_or] at hbound
  rw [← cameTo] at hbound
  split_ifs with hwritten
  · obtain ⟨found, hfound⟩ := Option.isSome_iff_exists.mp (hbound.mpr hwritten)
    rw [hfound, hkeeps n found hfound]
  · exact Option.not_isSome_iff_eq_none.mp fun hsome => hwritten (hbound.mp hsome)

theorem settled_fits (h : settled parameters answer handed answers = some bound) :
    Fits (kept bound) parameters answer handed answers := by
  have hfinds := settled_finds parameters answer handed answers
  rw [h] at hfinds
  exact ((hfinds.1 (kept bound)).mp (keeps_kept bound)).2

theorem settled_of_fits {types : ℕ → Ty} (hfits : Fits types parameters answer handed answers) :
    ∃ bound, settled parameters answer handed answers = some bound := by
  have hfinds := settled_finds parameters answer handed answers
  cases h : settled parameters answer handed answers with
  | none =>
    rw [h] at hfinds
    exact absurd hfits (hfinds types (keeps_nil types))
  | some bound => exact ⟨bound, rfl⟩

theorem settled_applied (h : settled parameters answer handed answers = some bound) :
    parameters.map (applied bound) = handed.map some ∧ applied bound answer = some answers := by
  have hfits := settled_fits h
  have hcame := settled_unique h hfits
  have happlied : ∀ ty, (∀ n ∈ numbers ty, n ∈ written parameters answer) →
      applied bound ty = some (assigned (kept bound) ty) := by
    intro ty hsub
    apply applied_of
    intro n hn
    rw [hcame, if_pos (hsub n hn)]
  constructor
  · rw [← hfits.1, List.map_map]
    apply List.map_congr_left
    intro parameter hmem
    exact happlied parameter fun n hn =>
      List.mem_append_left _ (List.mem_flatMap.mpr ⟨parameter, hmem, hn⟩)
  · rw [happlied answer fun n hn => List.mem_append_right _ hn, hfits.2]

/-- What is found stays found where the variables of the types a call is made at are replaced. -/
theorem settled_stable (h : settled parameters answer handed answers = some bound)
    (types : ℕ → Ty) :
    ∃ found, settled parameters answer (handed.map (assigned types)) (assigned types answers) =
      some found ∧ ∀ n, cameTo found n = (cameTo bound n).map (assigned types) := by
  have hfits := settled_fits h
  have hreplaced : Fits (fun n => assigned types (kept bound n)) parameters answer
      (handed.map (assigned types)) (assigned types answers) := by
    constructor
    · rw [← hfits.1, List.map_map]
      exact List.map_congr_left fun parameter _ => (assigned_assigned _ _ parameter).symm
    · rw [← hfits.2, assigned_assigned]
  obtain ⟨found, hfound⟩ := settled_of_fits hreplaced
  refine ⟨found, hfound, ?_⟩
  intro n
  rw [settled_unique hfound hreplaced, settled_unique h hfits]
  split_ifs <;> rfl

end Settled

/-- A call of a helper is settled where some assignment of types to its variables makes what it
takes and answers what the call hands over and answers. What is found is that assignment, the only
one there is on the variables the helper writes, and it stays found, its types replaced, where the
variables of the body the call stands in are. -/
theorem matching_is_exact (parameters : List Ty) (answer : Ty) (handed : List Ty) (answers : Ty) :
    (∀ held : Held, held.parameters = parameters → held.answers = answer →
      called held handed answers = settled parameters answer handed answers) ∧
    ((settled parameters answer handed answers).isSome = true ↔
      ∃ types, Fits types parameters answer handed answers) ∧
    ∀ bound, settled parameters answer handed answers = some bound →
      (∀ types, Fits types parameters answer handed answers → ∀ n,
        cameTo bound n = if n ∈ written parameters answer then some (types n) else none) ∧
      (parameters.map (applied bound) = handed.map some ∧ applied bound answer = some answers) ∧
      ∀ types, ∃ found,
        settled parameters answer (handed.map (assigned types)) (assigned types answers) =
          some found ∧ ∀ n, cameTo found n = (cameTo bound n).map (assigned types) := by
  refine ⟨?_, ?_, ?_⟩
  · rintro held rfl rfl
    rfl
  · constructor
    · intro hsome
      obtain ⟨bound, hbound⟩ := Option.isSome_iff_exists.mp hsome
      exact ⟨kept bound, settled_fits hbound⟩
    · rintro ⟨types, hfits⟩
      obtain ⟨bound, hbound⟩ := settled_of_fits hfits
      rw [hbound]
      rfl
  · intro bound hbound
    exact ⟨fun types => settled_unique hbound, settled_applied hbound, settled_stable hbound⟩

/-- A call that hands over a function of a variable of the body it stands in, settled, and settled
again where that variable is replaced. -/
theorem matching_open : ∃ found,
    settled [.fn [.var 1] (.var 0)] (.list (.var 0)) [.fn [.never] (.option .never)]
        (.list (.option .never)) = some found ∧
      ∀ n, cameTo found n =
        (cameTo [some (.option (.var 5)), some (.var 5)] n).map (assigned fun _ => .never) :=
  ((matching_is_exact [.fn [.var 1] (.var 0)] (.list (.var 0))
    [.fn [.var 5] (.option (.var 5))] (.list (.option (.var 5)))).2.2
      [some (.option (.var 5)), some (.var 5)] rfl).2.2 fun _ => .never

end SoutherNative.Specialize
