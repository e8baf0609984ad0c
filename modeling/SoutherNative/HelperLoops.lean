import Mathlib

set_option autoImplicit false

/-!
# A helper's loop

A copy of a helper runs in one frame: a call of the same copy, standing where the body answers, works
its arguments out and jumps to the start with them. It answers as a function that calls itself at
every such call does, and runs forever exactly where that one recurses forever.
-/
namespace SoutherNative.HelperLoops

section Answers

variable {A B D E : Type}

def andThen (answer : Option (Except E A)) (next : A → Option (Except E B)) : Option (Except E B) :=
  match answer with
  | none => none
  | some (.error status) => some (.error status)
  | some (.ok value) => next value

@[simp] theorem andThen_ok (value : A) (next : A → Option (Except E B)) :
    andThen (some (.ok value)) next = next value := rfl

theorem andThen_assoc (answer : Option (Except E A)) (next : A → Option (Except E B))
    (last : B → Option (Except E D)) :
    andThen (andThen answer next) last = andThen answer fun value => andThen (next value) last := by
  rcases answer with _ | _ | _ <;> rfl

def Le (answer further : Option A) : Prop := ∀ a, answer = some a → further = some a

theorem Le.refl (answer : Option A) : Le answer answer := fun _ h => h

theorem Le.trans {answer further last : Option A} (h : Le answer further) (h' : Le further last) :
    Le answer last := fun a ha => h' a (h a ha)

theorem andThen_le {answer further : Option (Except E A)} {next last : A → Option (Except E B)}
    (h : Le answer further) (h' : ∀ value, Le (next value) (last value)) :
    Le (andThen answer next) (andThen further last) := by
  intro result hresult
  rcases answer with _ | status | value
  · cases hresult
  · rw [h _ rfl]
    exact hresult
  · rw [h _ rfl]
    exact h' value result hresult

end Answers

mutual

/-- A node of a body: what a binding holds, an operation over values that are all worked out first, a
closure made of what it captures, a call, a call of a value, or a fork that goes on to one arm. -/
inductive Node (V E R : Type)
  | read (binding : ℕ)
  | strict (run : List V → Except E V) (given : Nodes V E R)
  | closure (make : List V → V) (captured : List ℕ)
  | call (reaches : R) (given : Nodes V E R)
  | invoke (function : Node V E R) (given : Nodes V E R)
  | fork (given : Nodes V E R) (choose : List V → Except E (ℕ × V)) (arms : Arms V E R)

inductive Nodes (V E R : Type)
  | nil
  | cons (node : Node V E R) (rest : Nodes V E R)

inductive Arms (V E R : Type)
  | nil
  | cons (binding : Option ℕ) (body : Node V E R) (rest : Arms V E R)

end

variable {V E R C : Type}

namespace Node

/-- `Node::Let`. -/
def letIn (noArm : E) (binding : ℕ) (value body : Node V E R) : Node V E R :=
  .fork (.cons value .nil)
    (fun
      | [held] => .ok (0, held)
      | _ => .error noArm)
    (.cons (some binding) body .nil)

/-- `Node::If`. -/
def ifElse (noArm : E) (isTrue : V → Bool) (cond thenBody elseBody : Node V E R) : Node V E R :=
  .fork (.cons cond .nil)
    (fun
      | [asked] => .ok (if isTrue asked then 0 else 1, asked)
      | _ => .error noArm)
    (.cons none thenBody (.cons none elseBody .nil))

def firstTaken : ℕ → List (V → Option V) → V → Option (ℕ × V)
  | _, [], _ => none
  | place, test :: rest, subject => match test subject with
    | some bound => some (place, bound)
    | none => firstTaken (place + 1) rest subject

/-- `Node::Match`, its arms tried in the order they are written. -/
def matchOn (noArm : E) (subject : Node V E R) (tests : List (V → Option V)) (arms : Arms V E R) :
    Node V E R :=
  .fork (.cons subject .nil)
    (fun
      | [value] => match firstTaken 0 tests value with
        | some taken => .ok taken
        | none => .error noArm
      | _ => .error noArm)
    arms

/-- `Node::Attempt`: what decides the construction is called with the fields, and goes on to what is
bound to the value or to the departure taken for the clause that does not hold. -/
def attempt (noArm : E) (checked : R) (values : Nodes V E R) (decided : V → V ⊕ ℕ) (taken : List ℕ)
    (binding : ℕ) (thenBody : Node V E R) (departures : Arms V E R) : Node V E R :=
  .fork (.cons (.call checked values) .nil)
    (fun
      | [answer] => match decided answer with
        | .inl value => .ok (0, value)
        | .inr clause => match taken[clause]? with
          | some departure => .ok (departure + 1, answer)
          | none => .error noArm
      | _ => .error noArm)
    (.cons (some binding) thenBody departures)

/-- `&&` and `||`: what is on the right is worked out only where what is on the left does not settle
them, and for its value, so not where the body answers. -/
def settling (noArm : E) (isTrue : V → Bool) (settles : Bool) (settled : V)
    (left right : Node V E R) : Node V E R :=
  .strict
    (fun
      | [held] => .ok held
      | _ => .error noArm)
    (.cons (.ifElse noArm (fun value => isTrue value == settles) left
      (.strict (fun _ => .ok settled) .nil) right) .nil)

end Node

/-- The functions of a program: how many parameters each has and its body, which of them a call
reaches and a function value is of, and whether each is a copy of a helper. -/
structure Program (V E R C : Type) where
  arity : C → ℕ
  body : C → Node V E R
  callee : R → C
  helper : C → Bool
  codeOf : V → C × List V
  noArm : E

abbrev Env (V : Type) := ℕ → Option V

def Env.bind (env : Env V) (binding : Option ℕ) (value : V) : Env V :=
  match binding with
  | some number => Function.update env number (some value)
  | none => env

def Env.enter (arity : ℕ) (given : List V) (env : Env V) : Env V :=
  fun binding => if binding < arity then given[binding]? else env binding

abbrev Calls (V E C : Type) := C → List V → Option (Except E V)

section Eval

variable (p : Program V E R C) (calls : Calls V E C)

mutual

/-- A node's value where it stands, its calls answered by `calls`. -/
def eval (env : Env V) : Node V E R → Option (Except E V)
  | .read binding => (env binding).map .ok
  | .strict run given => andThen (evalEach env given) fun values => some (run values)
  | .closure make captured => (captured.mapM env).map fun values => .ok (make values)
  | .call reaches given => andThen (evalEach env given) (calls (p.callee reaches))
  | .invoke function given => andThen (eval env function) fun value =>
      andThen (evalEach env given) fun values =>
        calls (p.codeOf value).1 ((p.codeOf value).2 ++ values)
  | .fork given choose arms => andThen (evalEach env given) fun values =>
      andThen (some (choose values)) fun taken => evalArm env taken.1 taken.2 arms

def evalEach (env : Env V) : Nodes V E R → Option (Except E (List V))
  | .nil => some (.ok [])
  | .cons node rest => andThen (eval env node) fun value =>
      andThen (evalEach env rest) fun values => some (.ok (value :: values))

def evalArm (env : Env V) : ℕ → V → Arms V E R → Option (Except E V)
  | _, _, .nil => some (.error p.noArm)
  | 0, bound, .cons binding body _ => eval (env.bind binding bound) body
  | place + 1, bound, .cons _ _ rest => evalArm env place bound rest

end

end Eval

mutual

inductive Code (V E R : Type)
  | answer (node : Node V E R)
  | jump (given : Nodes V E R)
  | fork (given : Nodes V E R) (choose : List V → Except E (ℕ × V)) (arms : CodeArms V E R)

inductive CodeArms (V E R : Type)
  | nil
  | cons (binding : Option ℕ) (body : Code V E R) (rest : CodeArms V E R)

end

inductive Round (V : Type)
  | answers (value : V)
  | jumps (given : List V) (env : Env V)

section Lower

variable [DecidableEq C] (p : Program V E R C)

mutual

def lowerTail (self : C) : Node V E R → Code V E R
  | .call reaches given => if p.callee reaches = self then .jump given else .answer (.call reaches given)
  | .fork given choose arms => .fork given choose (lowerArms self arms)
  | .read binding => .answer (.read binding)
  | .strict run given => .answer (.strict run given)
  | .closure make captured => .answer (.closure make captured)
  | .invoke function given => .answer (.invoke function given)

def lowerArms (self : C) : Arms V E R → CodeArms V E R
  | .nil => .nil
  | .cons binding body rest => .cons binding (lowerTail self body) (lowerArms self rest)

end

mutual

def Jumps (self : C) : Code V E R → Prop
  | .answer (.call reaches _) => p.callee reaches ≠ self
  | .fork _ _ arms => JumpsIn self arms
  | .answer (.read _) | .answer (.strict _ _) | .answer (.closure _ _) | .answer (.invoke _ _)
  | .answer (.fork _ _ _) | .jump _ => True

def JumpsIn (self : C) : CodeArms V E R → Prop
  | .nil => True
  | .cons _ body rest => Jumps self body ∧ JumpsIn self rest

end

mutual

theorem jumps_lowerTail (self : C) : ∀ node : Node V E R, Jumps p self (lowerTail p self node)
  | .call reaches given => by
    rw [lowerTail]
    split_ifs with hself
    · trivial
    · exact hself
  | .fork given choose arms => by
    rw [lowerTail, Jumps]
    exact jumpsIn_lowerArms self arms
  | .read _ => trivial
  | .strict _ _ => trivial
  | .closure _ _ => trivial
  | .invoke _ _ => trivial

theorem jumpsIn_lowerArms (self : C) : ∀ arms : Arms V E R, JumpsIn p self (lowerArms p self arms)
  | .nil => trivial
  | .cons _ body rest => ⟨jumps_lowerTail self body, jumpsIn_lowerArms self rest⟩

end

def codeFor (c : C) : Code V E R :=
  if p.helper c then lowerTail p c (p.body c) else .answer (p.body c)

variable (calls : Calls V E C)

mutual

def evalCode (env : Env V) : Code V E R → Option (Except E (Round V))
  | .answer node => andThen (eval p calls env node) fun value => some (.ok (.answers value))
  | .jump given => andThen (evalEach p calls env given) fun values => some (.ok (.jumps values env))
  | .fork given choose arms => andThen (evalEach p calls env given) fun values =>
      andThen (some (choose values)) fun taken => evalCodeArm env taken.1 taken.2 arms

def evalCodeArm (env : Env V) : ℕ → V → CodeArms V E R → Option (Except E (Round V))
  | _, _, .nil => some (.error p.noArm)
  | 0, bound, .cons binding body _ => evalCode (env.bind binding bound) body
  | place + 1, bound, .cons _ _ rest => evalCodeArm env place bound rest

end

/-- So many rounds of a function in one frame. The bindings of a round stand as they are when the
next begins, but for the parameters. -/
def rounds (c : C) : ℕ → Env V → Option (Except E V)
  | 0, _ => none
  | bound + 1, env => andThen (evalCode p calls env (codeFor p c)) fun
    | .answers value => some (.ok value)
    | .jumps given env' => rounds c bound (env'.enter (p.arity c) given)

def runLoop : ℕ → Calls V E C
  | 0, _, _ => none
  | depth + 1, c, given =>
    rounds p (runLoop depth) c (depth + 1) (Env.enter (p.arity c) given fun _ => none)

omit [DecidableEq C] in
def runCalls : ℕ → Calls V E C
  | 0, _, _ => none
  | depth + 1, c, given =>
    eval p (runCalls depth) (Env.enter (p.arity c) given fun _ => none) (p.body c)

end Lower

mutual

def lowers (scope : List ℕ) : Node V E R → Bool
  | .read binding => binding ∈ scope
  | .strict _ given => lowersEach scope given
  | .closure _ captured => captured.all (· ∈ scope)
  | .call _ given => lowersEach scope given
  | .invoke function given => lowers scope function && lowersEach scope given
  | .fork given _ arms => lowersEach scope given && lowersArms scope arms

def lowersEach (scope : List ℕ) : Nodes V E R → Bool
  | .nil => true
  | .cons node rest => lowers scope node && lowersEach scope rest

def lowersArms (scope : List ℕ) : Arms V E R → Bool
  | .nil => true
  | .cons binding body rest =>
    binding.all (· ∉ scope) && lowers (binding.toList ++ scope) body && lowersArms scope rest

end

def Lowered (p : Program V E R C) : Prop := ∀ c, lowers (List.range (p.arity c)) (p.body c) = true

section Monotone

variable (p : Program V E R C) {calls further : Calls V E C}

def Calls.Le (calls further : Calls V E C) : Prop :=
  ∀ c given, HelperLoops.Le (calls c given) (further c given)

mutual

theorem eval_le (h : Calls.Le calls further) (env : Env V) :
    ∀ node : Node V E R, Le (eval p calls env node) (eval p further env node)
  | .read _ => Le.refl _
  | .strict _ given => by
    rw [eval, eval]
    exact andThen_le (evalEach_le h env given) fun _ => Le.refl _
  | .closure _ _ => by
    rw [eval, eval]
    exact Le.refl _
  | .call reaches given => by
    rw [eval, eval]
    exact andThen_le (evalEach_le h env given) fun values => h (p.callee reaches) values
  | .invoke function given => by
    rw [eval, eval]
    exact andThen_le (eval_le h env function) fun value =>
      andThen_le (evalEach_le h env given) fun values => h _ _
  | .fork given _ arms => by
    rw [eval, eval]
    exact andThen_le (evalEach_le h env given) fun _ =>
      andThen_le (Le.refl _) fun taken => evalArm_le h env taken.1 taken.2 arms

theorem evalEach_le (h : Calls.Le calls further) (env : Env V) :
    ∀ given : Nodes V E R, Le (evalEach p calls env given) (evalEach p further env given)
  | .nil => Le.refl _
  | .cons node rest => by
    rw [evalEach, evalEach]
    exact andThen_le (eval_le h env node) fun _ =>
      andThen_le (evalEach_le h env rest) fun _ => Le.refl _

theorem evalArm_le (h : Calls.Le calls further) (env : Env V) (place : ℕ) (bound : V) :
    ∀ arms : Arms V E R, Le (evalArm p calls env place bound arms) (evalArm p further env place bound arms)
  | .nil => by
    rw [evalArm, evalArm]
    exact Le.refl _
  | .cons binding body rest => by
    cases place with
    | zero =>
      rw [evalArm, evalArm]
      exact eval_le h (env.bind binding bound) body
    | succ place =>
      rw [evalArm, evalArm]
      exact evalArm_le h env place bound rest

end

mutual

theorem evalCode_le (h : Calls.Le calls further) (env : Env V) :
    ∀ code : Code V E R, Le (evalCode p calls env code) (evalCode p further env code)
  | .answer node => by
    rw [evalCode, evalCode]
    exact andThen_le (eval_le p h env node) fun _ => Le.refl _
  | .jump given => by
    rw [evalCode, evalCode]
    exact andThen_le (evalEach_le p h env given) fun _ => Le.refl _
  | .fork given _ arms => by
    rw [evalCode, evalCode]
    exact andThen_le (evalEach_le p h env given) fun _ =>
      andThen_le (Le.refl _) fun taken => evalCodeArm_le h env taken.1 taken.2 arms

theorem evalCodeArm_le (h : Calls.Le calls further) (env : Env V) (place : ℕ) (bound : V) :
    ∀ arms : CodeArms V E R,
      Le (evalCodeArm p calls env place bound arms) (evalCodeArm p further env place bound arms)
  | .nil => by
    rw [evalCodeArm, evalCodeArm]
    exact Le.refl _
  | .cons binding body rest => by
    cases place with
    | zero =>
      rw [evalCodeArm, evalCodeArm]
      exact evalCode_le h (env.bind binding bound) body
    | succ place =>
      rw [evalCodeArm, evalCodeArm]
      exact evalCodeArm_le h env place bound rest

end

end Monotone

def AgreeOn (scope : List ℕ) (env env' : Env V) : Prop := ∀ binding ∈ scope, env binding = env' binding

theorem AgreeOn.bind {scope : List ℕ} {env env' : Env V} (h : AgreeOn scope env env')
    (binding : Option ℕ) (value : V) :
    AgreeOn (binding.toList ++ scope) (env.bind binding value) (env'.bind binding value) := by
  cases binding with
  | none => exact h
  | some number =>
    intro other hother
    by_cases heq : other = number
    · rw [heq]
      simp only [Env.bind, Function.update_self]
    · have hmem : other ∈ scope := by
        rcases List.mem_append.mp hother with hnumber | hmem
        · exact absurd (List.mem_singleton.mp hnumber) heq
        · exact hmem
      simp only [Env.bind, Function.update_of_ne heq]
      exact h other hmem

theorem AgreeOn.enter (arity : ℕ) (given : List V) (env env' : Env V) :
    AgreeOn (List.range arity) (env.enter arity given) (env'.enter arity given) := by
  intro binding hbinding
  rw [Env.enter, Env.enter, if_pos (List.mem_range.mp hbinding), if_pos (List.mem_range.mp hbinding)]

theorem AgreeOn.mapM {scope : List ℕ} {env env' : Env V} (h : AgreeOn scope env env')
    {captured : List ℕ} (hcaptured : ∀ binding ∈ captured, binding ∈ scope) :
    captured.mapM env = captured.mapM env' := by
  induction captured with
  | nil => rfl
  | cons binding captured ih =>
    rw [List.mapM_cons, List.mapM_cons, h binding (hcaptured binding List.mem_cons_self),
      ih fun other hother => hcaptured other (List.mem_cons_of_mem _ hother)]

section Agree

variable (p : Program V E R C) (calls : Calls V E C)

mutual

theorem eval_agree {scope : List ℕ} {env env' : Env V} (h : AgreeOn scope env env') :
    ∀ node : Node V E R, lowers scope node = true → eval p calls env node = eval p calls env' node
  | .read binding, hlowers => by
    rw [lowers, decide_eq_true_eq] at hlowers
    rw [eval, eval, h binding hlowers]
  | .strict _ given, hlowers => by
    rw [lowers] at hlowers
    rw [eval, eval, evalEach_agree h given hlowers]
  | .closure _ captured, hlowers => by
    simp only [lowers, List.all_eq_true, decide_eq_true_eq] at hlowers
    rw [eval, eval, h.mapM hlowers]
  | .call _ given, hlowers => by
    rw [lowers] at hlowers
    rw [eval, eval, evalEach_agree h given hlowers]
  | .invoke function given, hlowers => by
    rw [lowers, Bool.and_eq_true] at hlowers
    rw [eval, eval, eval_agree h function hlowers.1, evalEach_agree h given hlowers.2]
  | .fork given choose arms, hlowers => by
    rw [lowers, Bool.and_eq_true] at hlowers
    rw [eval, eval, evalEach_agree h given hlowers.1]
    congr 1
    funext values
    congr 1
    funext taken
    exact evalArm_agree h taken.1 taken.2 arms hlowers.2

theorem evalEach_agree {scope : List ℕ} {env env' : Env V} (h : AgreeOn scope env env') :
    ∀ given : Nodes V E R, lowersEach scope given = true →
      evalEach p calls env given = evalEach p calls env' given
  | .nil, _ => rfl
  | .cons node rest, hlowers => by
    rw [lowersEach, Bool.and_eq_true] at hlowers
    rw [evalEach, evalEach, eval_agree h node hlowers.1, evalEach_agree h rest hlowers.2]

theorem evalArm_agree {scope : List ℕ} {env env' : Env V} (h : AgreeOn scope env env') (place : ℕ)
    (bound : V) : ∀ arms : Arms V E R, lowersArms scope arms = true →
      evalArm p calls env place bound arms = evalArm p calls env' place bound arms
  | .nil, _ => by rw [evalArm, evalArm]
  | .cons binding body rest, hlowers => by
    rw [lowersArms, Bool.and_eq_true, Bool.and_eq_true] at hlowers
    cases place with
    | zero =>
      rw [evalArm, evalArm]
      exact eval_agree (h.bind binding bound) body hlowers.1.2
    | succ place =>
      rw [evalArm, evalArm]
      exact evalArm_agree h place bound rest hlowers.2

end

end Agree

section Tail

variable [DecidableEq C] (p : Program V E R C) (calls : Calls V E C)

def resume (self : C) : Round V → Option (Except E V)
  | .answers value => some (.ok value)
  | .jumps given _ => calls self given

mutual

theorem eval_lowerTail (self : C) (env : Env V) :
    ∀ node : Node V E R, eval p calls env node =
      andThen (evalCode p calls env (lowerTail p self node)) (resume calls self)
  | .call reaches given => by
    rw [lowerTail]
    split_ifs with hself
    · rw [evalCode, andThen_assoc, eval, hself]
      rfl
    · rw [evalCode, andThen_assoc]
      rcases eval p calls env (.call reaches given) with _ | _ | _ <;> rfl
  | .fork given choose arms => by
    rw [lowerTail, evalCode, andThen_assoc, eval]
    congr 1
    funext values
    rw [andThen_assoc]
    congr 1
    funext taken
    exact evalArm_lowerArms self env taken.1 taken.2 arms
  | .read binding => by
    rw [lowerTail, evalCode, andThen_assoc]
    rcases eval p calls env (.read binding) with _ | _ | _ <;> rfl
  | .strict run given => by
    rw [lowerTail, evalCode, andThen_assoc]
    rcases eval p calls env (.strict run given) with _ | _ | _ <;> rfl
  | .closure make captured => by
    rw [lowerTail, evalCode, andThen_assoc]
    rcases eval p calls env (.closure make captured) with _ | _ | _ <;> rfl
  | .invoke function given => by
    rw [lowerTail, evalCode, andThen_assoc]
    rcases eval p calls env (.invoke function given) with _ | _ | _ <;> rfl

theorem evalArm_lowerArms (self : C) (env : Env V) (place : ℕ) (bound : V) :
    ∀ arms : Arms V E R, evalArm p calls env place bound arms =
      andThen (evalCodeArm p calls env place bound (lowerArms p self arms)) (resume calls self)
  | .nil => by
    rw [lowerArms, evalArm, evalCodeArm]
    rfl
  | .cons binding body rest => by
    rw [lowerArms]
    cases place with
    | zero =>
      rw [evalArm, evalCodeArm]
      exact eval_lowerTail self (env.bind binding bound) body
    | succ place =>
      rw [evalArm, evalCodeArm]
      exact evalArm_lowerArms self env place bound rest

end

theorem eval_codeFor (c : C) (env : Env V) :
    eval p calls env (p.body c) =
      andThen (evalCode p calls env (codeFor p c)) (resume calls c) := by
  rw [codeFor]
  split_ifs
  · exact eval_lowerTail p calls c env (p.body c)
  · rw [evalCode, andThen_assoc]
    rcases eval p calls env (p.body c) with _ | _ | _ <;> rfl

end Tail

section Runs

variable (p : Program V E R C)

theorem Calls.Le.trans {calls further last : Calls V E C} (h : Calls.Le calls further)
    (h' : Calls.Le further last) : Calls.Le calls last :=
  fun c given => HelperLoops.Le.trans (h c given) (h' c given)

theorem runCalls_succ (depth : ℕ) : Calls.Le (runCalls p depth) (runCalls p (depth + 1)) := by
  induction depth with
  | zero =>
    intro c given result hresult
    cases hresult
  | succ depth ih =>
    intro c given
    rw [runCalls, runCalls]
    exact eval_le p ih _ _

theorem runCalls_le {depth further : ℕ} (h : depth ≤ further) :
    Calls.Le (runCalls p depth) (runCalls p further) := by
  induction further, h using Nat.le_induction with
  | base => exact fun c given => Le.refl _
  | succ further _ ih => exact ih.trans (runCalls_succ p further)

variable [DecidableEq C]

variable {p}

/-- What a function answers by calling itself, so many rounds of its loop answer, whatever the other
bindings of the frame hold. -/
theorem runCalls_le_rounds (hlowered : Lowered p) {depth : ℕ} {calls : Calls V E C}
    (h : Calls.Le (runCalls p depth) calls) (c : C) {bound : ℕ} (hbound : bound ≤ depth + 1)
    (given : List V) (env : Env V) :
    Le (runCalls p bound c given) (rounds p calls c bound (env.enter (p.arity c) given)) := by
  induction bound generalizing given env with
  | zero =>
    intro result hresult
    cases hresult
  | succ bound ih =>
    have hagree := AgreeOn.enter (p.arity c) given (fun _ => none) env
    rw [runCalls, eval_agree p _ hagree _ (hlowered c), eval_codeFor, rounds]
    apply andThen_le (evalCode_le p ((runCalls_le p (by omega)).trans h) _ _)
    intro round
    cases round with
    | answers value => exact Le.refl _
    | jumps given' env' => exact ih (by omega) given' env'

theorem rounds_le_runCalls (hlowered : Lowered p) {depth : ℕ} {calls : Calls V E C}
    (h : Calls.Le calls (runCalls p depth)) (c : C) (bound : ℕ) (given : List V) (env : Env V) :
    Le (rounds p calls c bound (env.enter (p.arity c) given)) (runCalls p (depth + bound) c given) := by
  induction bound generalizing given env with
  | zero =>
    intro result hresult
    cases hresult
  | succ bound ih =>
    have hagree := AgreeOn.enter (p.arity c) given (fun _ => none) env
    rw [← Nat.add_assoc, runCalls, eval_agree p _ hagree _ (hlowered c), eval_codeFor, rounds]
    apply andThen_le (evalCode_le p (h.trans (runCalls_le p (by omega))) _ _)
    intro round
    cases round with
    | answers value => exact Le.refl _
    | jumps given' env' => exact ih given' env'

theorem runCalls_le_runLoop (hlowered : Lowered p) (depth : ℕ) :
    Calls.Le (runCalls p depth) (runLoop p depth) := by
  induction depth with
  | zero =>
    intro c given result hresult
    cases hresult
  | succ depth ih =>
    intro c given
    exact runCalls_le_rounds hlowered ih c (le_refl _) given _

theorem runLoop_le_runCalls (hlowered : Lowered p) (depth : ℕ) :
    ∃ further, Calls.Le (runLoop p depth) (runCalls p further) := by
  induction depth with
  | zero =>
    refine ⟨0, ?_⟩
    intro c given result hresult
    cases hresult
  | succ depth ih =>
    obtain ⟨further, hfurther⟩ := ih
    refine ⟨further + (depth + 1), ?_⟩
    intro c given
    exact rounds_le_runCalls hlowered hfurther c (depth + 1) given _

def Ends (run : ℕ → Calls V E C) (c : C) (given : List V) (result : Except E V) : Prop :=
  ∃ depth, run depth c given = some result

def RunsForever (run : ℕ → Calls V E C) (c : C) (given : List V) : Prop :=
  ∀ depth, run depth c given = none

/-- A helper's loop ends as its recursion does and runs forever where that does, nothing that a
binding held in an earlier round being seen; a call of the same copy where the body answers is a
jump, and one that reaches any other copy, or stands on the right of `&&` or `||`, stays a call. -/
theorem a_helpers_loop_is_its_recursion (hlowered : Lowered p) (c : C) :
    (∀ given result, Ends (runLoop p) c given result ↔ Ends (runCalls p) c given result) ∧
    (∀ given, RunsForever (runLoop p) c given ↔ RunsForever (runCalls p) c given) ∧
    (∀ given result env, Ends (runCalls p) c given result ↔
      ∃ depth bound, rounds p (runLoop p depth) c bound (Env.enter (p.arity c) given env) =
        some result) ∧
    (∀ reaches given, p.callee reaches ≠ c →
      lowerTail p c (.call reaches given) = .answer (.call reaches given)) ∧
    (∀ reaches given, p.callee reaches = c → lowerTail p c (.call reaches given) = .jump given) ∧
    (∀ node, Jumps p c (lowerTail p c node)) ∧
    ∀ noArm isTrue settles settled left right,
      lowerTail p c (.settling noArm isTrue settles settled left right) =
        .answer (.settling noArm isTrue settles settled left right) := by
  have hends : ∀ given result, Ends (runLoop p) c given result ↔ Ends (runCalls p) c given result := by
    intro given result
    constructor
    · rintro ⟨depth, hrun⟩
      obtain ⟨further, hfurther⟩ := runLoop_le_runCalls hlowered depth
      exact ⟨further, hfurther c given result hrun⟩
    · rintro ⟨depth, hrun⟩
      exact ⟨depth, runCalls_le_runLoop hlowered depth c given result hrun⟩
  refine ⟨hends, ?_, ?_, ?_, ?_, jumps_lowerTail p c, ?_⟩
  · intro given
    have hforever : ∀ run : ℕ → Calls V E C,
        RunsForever run c given ↔ ∀ result, ¬ Ends run c given result := by
      intro run
      constructor
      · rintro hnone result ⟨depth, hrun⟩
        rw [hnone depth] at hrun
        cases hrun
      · intro hnot depth
        cases hrun : run depth c given with
        | none => rfl
        | some result => exact absurd ⟨depth, hrun⟩ (hnot result)
    rw [hforever, hforever]
    exact forall_congr' fun result => not_congr (hends given result)
  · intro given result env
    constructor
    · rintro ⟨depth, hrun⟩
      exact ⟨depth, depth, runCalls_le_rounds hlowered (runCalls_le_runLoop hlowered depth) c
        (Nat.le_succ depth) given env result hrun⟩
    · rintro ⟨depth, bound, hrun⟩
      obtain ⟨further, hfurther⟩ := runLoop_le_runCalls hlowered depth
      exact ⟨further + bound, rounds_le_runCalls hlowered hfurther c bound given env result hrun⟩
  · intro reaches given hne
    rw [lowerTail, if_neg hne]
  · intro reaches given hsame
    rw [lowerTail, if_pos hsame]
  · intro noArm isTrue settles settled left right
    rfl

end Runs

def summed : Program ℕ Unit Unit Unit where
  arity _ := 2
  body _ := .ifElse () (· == 0) (.read 0) (.read 1)
    (.call ()
      (.cons (.strict (fun numbers => .ok (numbers.sum - 1)) (.cons (.read 0) .nil))
        (.cons (.strict (fun numbers => .ok numbers.sum) (.cons (.read 0) (.cons (.read 1) .nil)))
          .nil)))
  callee _ := ()
  helper _ := true
  codeOf _ := ((), [])
  noArm := ()

theorem summed_loops : Ends (runLoop summed) () [3, 0] (.ok 6) :=
  ((a_helpers_loop_is_its_recursion (p := summed) (fun _ => rfl) ()).1 [3, 0] (.ok 6)).mpr
    ⟨5, rfl⟩

end SoutherNative.HelperLoops
