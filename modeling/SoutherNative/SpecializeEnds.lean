import SoutherNative.SpecializeSound

set_option autoImplicit false

/-!
# Making the copies ends

A copy made from the body of another stands under it, and no helper stands under itself more than a
fixed number of times, so what stands under what is as deep as the helpers allow at most. Reading a
copy's body takes its weight away and adds less than that for the copies its calls make.
-/
namespace SoutherNative.SpecializeEnds
open Transport Nodes Specialize SpecializeSound

lemma callOf_length (place : List ℕ) (core : Core) (ty : Ty) (children : List Node) :
    (callOf place core ty children).length ≤ 1 := by
  unfold callOf
  split <;> simp

mutual

lemma callsIn_length (place : List ℕ) : ∀ node, (callsIn place node).length ≤ size node
  | .node core ty children => by
    have own := callOf_length place core ty children
    have under := callsUnder_length place (neverLowered core ty children) 0 children
    simp only [callsIn, List.length_append, size]
    omega

lemma callsUnder_length (place unrun : List ℕ) (child : ℕ) :
    ∀ nodes, (callsUnder place unrun child nodes).length ≤ sizes nodes
  | [] => by simp [callsUnder]
  | node :: rest => by
    have first := callsIn_length (place ++ [child]) node
    have others := callsUnder_length place unrun (child + 1) rest
    simp only [callsUnder, List.length_append, sizes]
    split
    · simp only [List.length_nil]
      omega
    · omega

end

mutual

lemma size_settle (bound : Substitution) : ∀ node, size (settle bound node) = size node
  | .node core ty children => by
    simp only [settle, size]
    rw [sizes_settleUnder]

lemma sizes_settleUnder (bound : Substitution) (unrun : List ℕ) (child : ℕ) :
    ∀ nodes, sizes (settleUnder bound unrun child nodes) = sizes nodes
  | [] => by simp [settleUnder]
  | node :: rest => by
    simp only [settleUnder, sizes]
    rw [sizes_settleUnder bound unrun (child + 1) rest]
    split
    · rfl
    · rw [size_settle bound node]

end

lemma bodyOf_size (held : Held) (types : List (Option Ty)) :
    size (bodyOf held types) = size held.body := by
  unfold bodyOf
  split
  · rfl
  · exact size_settle types held.body

def Earlier (instances : List Instance) : Prop :=
  ∀ (id : ℕ) (made : Instance) (parent : ℕ), instances[id]? = some made →
    made.parent = some parent → parent < id

structure Chained (instances : List Instance) : Prop where
  earlier : Earlier instances
  shallow : ∀ id < instances.length, ∀ helper,
    along instances (some id) helper ≤ DEPTH

/-- A chain is the same however many copies are made after it, and however many steps past its
    length it is followed for. -/
lemma ancestry_stable {xs ys : List Instance} (earlier : Earlier xs) (front : xs <+: ys) :
    ∀ id < xs.length, ∀ m n, id < m → id < n →
      ancestry xs m (some id) = ancestry ys n (some id) := by
  intro id
  induction id using Nat.strong_induction_on with
  | _ id ih =>
    intro inside m n enough enough'
    obtain ⟨m, rfl⟩ : ∃ k, m = k + 1 := ⟨m - 1, by omega⟩
    obtain ⟨n, rfl⟩ : ∃ k, n = k + 1 := ⟨n - 1, by omega⟩
    have stands : xs[id]? = some xs[id] := List.getElem?_eq_getElem inside
    simp only [ancestry, getElem?_of_front front inside, stands]
    cases parent : xs[id].parent with
    | none =>
      cases m <;> cases n <;> rfl
    | some above =>
      have before := earlier id _ above stands parent
      rw [ih above before (by omega) m n (by omega) (by omega)]

lemma along_stable {xs ys : List Instance} (earlier : Earlier xs) (front : xs <+: ys) {id : ℕ}
    (inside : id < xs.length) (helper : HelperKey) :
    along ys (some id) helper = along xs (some id) helper := by
  have longer := front.length_le
  unfold along
  rw [ancestry_stable earlier front id inside xs.length ys.length inside (by omega)]

/-- The chain of a copy made last: itself, and the chain of the copy it was made from. -/
lemma ancestry_last {xs : List Instance} (earlier : Earlier xs) (made : Instance)
    (above : ∀ parent, made.parent = some parent → parent < xs.length) :
    ancestry (xs ++ [made]) (xs ++ [made]).length (some xs.length) =
      made :: ancestry xs xs.length made.parent := by
  simp only [List.length_append, List.length_singleton, ancestry, List.getElem?_concat_length]
  cases parent : made.parent with
  | none => cases xs.length <;> rfl
  | some id =>
    have inside := above id parent
    rw [ancestry_stable earlier (List.prefix_append xs [made]) id inside xs.length xs.length
      inside inside]

lemma along_last {xs : List Instance} (earlier : Earlier xs) (made : Instance)
    (above : ∀ parent, made.parent = some parent → parent < xs.length) (helper : HelperKey) :
    along (xs ++ [made]) (some xs.length) helper =
      along xs made.parent helper + (if made.helperKey = helper then 1 else 0) := by
  unfold along
  rw [ancestry_last earlier made above, List.countP_cons]
  simp

lemma Chained.append {xs : List Instance} (chained : Chained xs) {made : Instance}
    (above : ∀ parent, made.parent = some parent → parent < xs.length)
    (allowed : along xs made.parent made.helperKey < DEPTH) : Chained (xs ++ [made]) := by
  constructor
  · intro id made' parent stands made_from
    have inside := (List.getElem?_eq_some_iff.mp stands).1
    simp only [List.length_append, List.length_singleton] at inside
    by_cases last : id = xs.length
    · subst last
      rw [List.getElem?_concat_length] at stands
      cases stands
      exact above parent made_from
    · rw [List.getElem?_append_left (by omega)] at stands
      exact chained.earlier id made' parent stands made_from
  · intro id inside helper
    simp only [List.length_append, List.length_singleton] at inside
    by_cases last : id = xs.length
    · subst last
      rw [along_last chained.earlier made above]
      split
      · rename_i same
        subst same
        omega
      · cases parent : made.parent with
        | none =>
          have empty : along xs none helper = 0 := by
            unfold along
            cases xs.length <;> rfl
          omega
        | some id =>
          have := chained.shallow id (above id parent) helper
          omega
    · rw [along_stable chained.earlier (List.prefix_append xs [made]) (by omega)]
      exact chained.shallow id (by omega) helper

def depth (instances : List Instance) (id : ℕ) : ℕ :=
  (ancestry instances instances.length (some id)).length

lemma depth_stable {xs ys : List Instance} (earlier : Earlier xs) (front : xs <+: ys) {id : ℕ}
    (inside : id < xs.length) : depth ys id = depth xs id := by
  have longer := front.length_le
  unfold depth
  rw [ancestry_stable earlier front id inside xs.length ys.length inside (by omega)]

/-- A list whose members come from `known` and none of which stands in it more than `most` times is
    no longer than so many of each. -/
lemma length_le_of_count {α : Type} [DecidableEq α] {xs : List α} {known : Finset α} {most : ℕ}
    (from_known : ∀ x ∈ xs, x ∈ known) (few : ∀ x, (xs.countP fun y => y = x) ≤ most) :
    xs.length ≤ known.card * most := by
  have few : ∀ x, xs.count x ≤ most := by
    intro x
    exact few x
  calc xs.length = ∑ x ∈ xs.toFinset, xs.count x := (List.sum_toFinset_count_eq_length xs).symm
    _ ≤ ∑ _x ∈ xs.toFinset, most := Finset.sum_le_sum fun x _ => few x
    _ = xs.toFinset.card * most := by rw [Finset.sum_const, smul_eq_mul]
    _ ≤ known.card * most := by
      apply Nat.mul_le_mul_right
      apply Finset.card_le_card
      intro x member
      exact from_known x (List.mem_toFinset.mp member)

def helperKeys (bodies : List Body) : Finset HelperKey :=
  (bodies.filterMap fun body =>
    body.owner.helper?.map fun held => (body.home, held.reached)).toFinset

lemma mem_helperKeys {bodies : List Body} {home : String} {held : Held}
    (holds : Holds bodies home held) : (home, held.reached) ∈ helperKeys bodies := by
  obtain ⟨body, member, rfl, owned⟩ := holds
  simp only [helperKeys, List.mem_toFinset, List.mem_filterMap]
  exact ⟨body, member, by rw [owned]; rfl⟩

def deepest (bodies : List Body) : ℕ := (helperKeys bodies).card * DEPTH

lemma mem_of_ancestry {instances : List Instance} {steps : ℕ} {id : Option ℕ} {made : Instance}
    (member : made ∈ ancestry instances steps id) : made ∈ instances := by
  induction steps generalizing id with
  | zero => simp [ancestry] at member
  | succ steps ih =>
    cases id with
    | none => simp [ancestry] at member
    | some id =>
      unfold ancestry at member
      cases stands : instances[id]? with
      | none => simp [stands] at member
      | some here =>
        simp only [stands] at member
        rcases List.mem_cons.mp member with rfl | above
        · exact List.mem_of_getElem? stands
        · exact ih above

lemma depth_le {bodies : List Body} {instances : List Instance}
    (held : ∀ made ∈ instances, Holds bodies made.home made.held) (chained : Chained instances)
    {id : ℕ} (inside : id < instances.length) : depth instances id ≤ deepest bodies := by
  have few : ∀ helper,
      (((ancestry instances instances.length (some id)).map Instance.helperKey).countP
        fun other => other = helper) ≤ DEPTH := by
    intro helper
    rw [List.countP_map]
    exact chained.shallow id inside helper
  have known : ∀ helper ∈ (ancestry instances instances.length (some id)).map Instance.helperKey,
      helper ∈ helperKeys bodies := by
    intro helper member
    obtain ⟨made, above, rfl⟩ := List.mem_map.mp member
    exact mem_helperKeys (held made (mem_of_ancestry above))
  have bound := length_le_of_count known few
  rwa [List.length_map] at bound

/-- What reading a body adds: at most one copy a call, each made from the body read. -/
structure Adds (parent : Option ℕ) (calls : ℕ) (s s' : Specializations) : Prop where
  chained : Chained s'.instances
  added : ∃ more, s'.instances = s.instances ++ more ∧ more.length ≤ calls ∧
    ∀ made ∈ more, made.parent = parent

lemma copy_adds {s s' : Specializations} {parent : Option ℕ} {home : String} {held : Held}
    {types : List (Option Ty)} {id : ℕ} (chained : Chained s.instances)
    (above : ∀ p, parent = some p → p < s.instances.length)
    (h : copy s parent home held types = .ok (id, s')) : Adds parent 1 s s' := by
  rcases copy_cases h with ⟨-, rfl⟩ | ⟨-, -, shallow, -, -, ordinal, instances⟩
  · exact ⟨chained, [], by simp, by simp, by simp⟩
  · refine ⟨?_, _, instances, by simp, by simp⟩
    rw [instances]
    exact chained.append above shallow

lemma resolve_adds {helpers : HelperKey → Option Held} {parent : Option ℕ} {standing : Standing}
    {home : String} {calls : List Called} {s s' : Specializations} (chained : Chained s.instances)
    (above : ∀ p, parent = some p → p < s.instances.length)
    (h : resolve helpers parent standing home calls s = .ok s') :
    Adds parent calls.length s s' := by
  induction calls generalizing s with
  | nil =>
    cases h
    exact ⟨chained, [], by simp, by simp, by simp⟩
  | cons call rest ih =>
    obtain ⟨held, bound, id, t, reached, -, -, made, -, onward⟩ := resolve_cons h
    obtain ⟨chained', more, grown, one, from_parent⟩ := copy_adds chained above made
    have above' : ∀ p, parent = some p → p < t.instances.length := by
      intro p same
      have := above p same
      rw [grown, List.length_append]
      omega
    obtain ⟨chained'', more', grown', few, from_parent'⟩ :=
      ih (s := { t with reached }) chained' above' onward
    refine ⟨chained'', more ++ more', ?_, ?_, ?_⟩
    · rw [grown', grown, List.append_assoc]
    · rw [List.length_append, List.length_cons]
      omega
    · intro made' member
      rcases List.mem_append.mp member with first | second
      · exact from_parent made' first
      · exact from_parent' made' second

lemma copyShut_chained {rest : List Body} {s s' : Specializations} (chained : Chained s.instances)
    (h : copyShut rest s = .ok s') : Chained s'.instances := by
  induction rest generalizing s with
  | nil =>
    cases h
    exact chained
  | cons body rest ih =>
    unfold copyShut at h
    cases owned : body.owner.helper? with
    | none =>
      simp only [owned] at h
      exact ih chained h
    | some held =>
      simp only [owned] at h
      split at h
      · cases made : copy s none body.home held [] with
        | error stop => simp [made, bind, Except.bind] at h
        | ok pair =>
          simp only [made, bind, Except.bind] at h
          have first := copy_adds chained (fun _ same => by cases same) made
          exact ih first.chained h
      · exact ih chained h

lemma resolveRoots_chained {helpers : HelperKey → Option Held} {place : ℕ} {rest : List Body}
    {s s' : Specializations} (chained : Chained s.instances)
    (h : resolveRoots helpers place rest s = .ok s') : Chained s'.instances := by
  induction rest generalizing place s with
  | nil =>
    cases h
    exact chained
  | cons body rest ih =>
    unfold resolveRoots at h
    cases read : resolve helpers none (.root place) body.home (callsIn [] body.node) s with
    | error stop => simp [read, bind, Except.bind] at h
    | ok t =>
      simp only [read, bind, Except.bind] at h
      have first := resolve_adds chained (fun _ same => by cases same) read
      exact ih first.chained h

lemma begun_chained {bodies : List Body} {helpers : HelperKey → Option Held} {s : Specializations}
    (h : begun bodies = .ok (helpers, s)) : Chained s.instances := by
  unfold begun at h
  cases table : gathered bodies fun _ => none with
  | error stop => simp [table, bind, Except.bind] at h
  | ok held =>
    cases shut : copyShut bodies Specializations.new with
    | error stop => simp [table, shut, bind, Except.bind] at h
    | ok t =>
      cases rooted : resolveRoots held 0 (roots bodies) t with
      | error stop => simp [table, shut, rooted, bind, Except.bind] at h
      | ok u =>
        simp only [table, shut, rooted, bind, Except.bind, pure, Except.pure, Except.ok.injEq,
          Prod.mk.injEq] at h
        obtain ⟨-, rfl⟩ := h
        have empty : Chained Specializations.new.instances := by
          constructor
          · intro id made parent stands
            simp [Specializations.new] at stands
          · intro id inside
            simp [Specializations.new] at inside
        exact resolveRoots_chained (copyShut_chained empty shut) rooted

def widest (bodies : List Body) : ℕ :=
  (bodies.map fun body => (body.owner.helper?.map fun held => size held.body).getD 0).sum

lemma size_le_widest {bodies : List Body} {home : String} {held : Held}
    (holds : Holds bodies home held) : size held.body ≤ widest bodies := by
  obtain ⟨body, member, -, owned⟩ := holds
  apply List.le_sum_of_mem
  exact List.mem_map.mpr ⟨body, member, by rw [owned]; rfl⟩

def weight (bodies : List Body) (instances : List Instance) (id : ℕ) : ℕ :=
  (widest bodies + 1) ^ (deepest bodies - depth instances id)

/-- What the copies from the one at `place` on weigh together. -/
def pending (bodies : List Body) (instances : List Instance) (place : ℕ) : ℕ :=
  ∑ id ∈ Finset.Ico place instances.length, weight bodies instances id

lemma depth_of_parent {instances : List Instance} (earlier : Earlier instances) {id parent : ℕ}
    {made : Instance} (stands : instances[id]? = some made) (madeFrom : made.parent = some parent) :
    depth instances id = depth instances parent + 1 := by
  have inside := (List.getElem?_eq_some_iff.mp stands).1
  have before := earlier id made parent stands madeFrom
  unfold depth
  obtain ⟨steps, length⟩ : ∃ k, instances.length = k + 1 := ⟨instances.length - 1, by omega⟩
  rw [length]
  conv_lhs => rw [ancestry]
  simp only [stands, madeFrom, List.length_cons]
  rw [ancestry_stable earlier List.prefix_rfl parent (by omega) steps (steps + 1) (by omega)
    (by omega)]

lemma pending_lt {bodies : List Body} {xs more : List Instance} {place : ℕ}
    (inside : place < xs.length) (before : Chained xs) (chained : Chained (xs ++ more))
    (held : ∀ made ∈ xs ++ more, Holds bodies made.home made.held)
    (few : more.length ≤ widest bodies) (madeFrom : ∀ made ∈ more, made.parent = some place) :
    pending bodies (xs ++ more) (place + 1) < pending bodies xs place := by
  have front := List.prefix_append xs more
  have kept : ∀ id < xs.length, weight bodies (xs ++ more) id = weight bodies xs id := by
    intro id early
    unfold weight
    rw [depth_stable before.earlier front early]
  have old : ∑ id ∈ Finset.Ico (place + 1) xs.length, weight bodies (xs ++ more) id =
      ∑ id ∈ Finset.Ico (place + 1) xs.length, weight bodies xs id := by
    apply Finset.sum_congr rfl
    intro id member
    exact kept id (Finset.mem_Ico.mp member).2
  have added : ∑ id ∈ Finset.Ico xs.length (xs ++ more).length, weight bodies (xs ++ more) id <
      weight bodies xs place := by
    have positive : 0 < weight bodies xs place := Nat.pow_pos (Nat.succ_pos _)
    -- Each copy added stands one deeper than the one read, which is not as deep as can be.
    have each : ∀ id ∈ Finset.Ico xs.length (xs ++ more).length,
        weight bodies (xs ++ more) id * (widest bodies + 1) ≤ weight bodies xs place := by
      intro id member
      have range := Finset.mem_Ico.mp member
      have stands : (xs ++ more)[id]? = some ((xs ++ more)[id]) := List.getElem?_eq_getElem range.2
      have new : (xs ++ more)[id] ∈ more := by
        rw [List.getElem_append_right range.1]
        exact List.getElem_mem _
      have deeper := depth_of_parent chained.earlier stands (madeFrom _ new)
      rw [depth_stable before.earlier front inside] at deeper
      have bounded := depth_le held chained range.2
      unfold weight
      rw [← pow_succ]
      apply Nat.pow_le_pow_right (Nat.succ_pos _)
      omega
    have together : (∑ id ∈ Finset.Ico xs.length (xs ++ more).length,
        weight bodies (xs ++ more) id) * (widest bodies + 1) ≤
          widest bodies * weight bodies xs place := by
      rw [Finset.sum_mul]
      calc ∑ id ∈ Finset.Ico xs.length (xs ++ more).length,
            weight bodies (xs ++ more) id * (widest bodies + 1)
          ≤ ∑ _id ∈ Finset.Ico xs.length (xs ++ more).length, weight bodies xs place :=
            Finset.sum_le_sum each
        _ = more.length * weight bodies xs place := by
            rw [Finset.sum_const, Nat.card_Ico, smul_eq_mul, List.length_append,
              Nat.add_sub_cancel_left]
        _ ≤ widest bodies * weight bodies xs place := Nat.mul_le_mul_right _ few
    by_contra heavy
    have heavy := not_lt.mp heavy
    have := Nat.mul_le_mul_right (widest bodies + 1) heavy
    have : weight bodies xs place * (widest bodies + 1) =
        widest bodies * weight bodies xs place + weight bodies xs place := by ring
    omega
  have split : pending bodies (xs ++ more) (place + 1) =
      ∑ id ∈ Finset.Ico (place + 1) xs.length, weight bodies (xs ++ more) id +
        ∑ id ∈ Finset.Ico xs.length (xs ++ more).length, weight bodies (xs ++ more) id := by
    unfold pending
    rw [Finset.sum_Ico_consecutive _ (by omega) (by rw [List.length_append]; omega)]
  have first : pending bodies xs place =
      weight bodies xs place + ∑ id ∈ Finset.Ico (place + 1) xs.length, weight bodies xs id :=
    Finset.sum_eq_sum_Ico_succ_bot inside _
  rw [split, first, old]
  omega

/-- Reading the copies' bodies ends, and not only for want of steps. -/
lemma walk_ends {bodies : List Body} {helpers : HelperKey → Option Held}
    (gathers : Gathers bodies helpers) (left : ℕ) :
    ∀ place s, Sound bodies s → Chained s.instances → pending bodies s.instances place ≤ left →
      ∃ steps outcome, walk helpers steps place s = some outcome := by
  induction left using Nat.strong_induction_on with
  | _ left ih =>
    intro place s sound chained bounded
    cases stands : s.instances[place]? with
    | none => exact ⟨1, .ok s, by simp [walk, stands]⟩
    | some here =>
      cases done : resolve helpers (some place) (.copy place) here.home (callsIn [] here.body) s with
      | error stop => exact ⟨1, .error stop, by simp [walk, stands, done]⟩
      | ok t =>
        have inside := (List.getElem?_eq_some_iff.mp stands).1
        have member : here ∈ s.instances := List.mem_of_getElem? stands
        have needed : ∀ call ∈ callsIn [] here.body, ∀ key,
            Needs bodies here.home call key → Needed bodies key := by
          intro call calls key needs keys closed
          exact closed.copy here.home here.held here.types (sound.held here member)
            (sound.needed here member keys closed) call calls key needs
        have after := resolve_spec gathers sound needed done
        have adds := resolve_adds chained (fun p same => by cases same; exact inside) done
        obtain ⟨chained', more, grown, few, madeFrom⟩ := adds
        have narrow : (callsIn [] here.body).length ≤ widest bodies :=
          calc (callsIn [] here.body).length ≤ size here.body := callsIn_length [] here.body
            _ = size here.held.body := bodyOf_size here.held here.types
            _ ≤ widest bodies := size_le_widest (sound.held here member)
        have held := after.1.held
        rw [grown] at chained' held
        have less := pending_lt inside chained chained' held (by omega) madeFrom
        rw [← grown] at less
        obtain ⟨steps, outcome, ends⟩ :=
          ih _ (by omega) (place + 1) t after.1 (by rw [grown]; exact chained') le_rfl
        exact ⟨steps + 1, outcome, by simp [walk, stands, done, ends]⟩

theorem of_ends (bodies : List Body) : ∃ steps outcome, of steps bodies = some outcome := by
  cases start : begun bodies with
  | error stop => exact ⟨0, .error stop, by simp [of, start]⟩
  | ok pair =>
    have begins := begun_spec start
    obtain ⟨steps, outcome, ends⟩ :=
      walk_ends begins.1 _ 0 pair.2 begins.2.1 (begun_chained start) le_rfl
    exact ⟨steps, outcome, by simp [of, start, ends]⟩

/-- Making the copies ends; and where it answers, the copies are the least set that holds each
    helper with no variables and is closed under every lowered call, each once, every such call is
    mapped to the copy of the helper it names at exactly the types it binds, and the copies are the
    same whatever the order the bodies are listed in. -/
theorem specializations_close (bodies : List Body) :
    (∃ steps outcome, of steps bodies = some outcome) ∧
    ∀ steps s, of steps bodies = some (.ok s) →
      IsLeast {keys | Closed bodies keys} (keysOf s) ∧
      (s.instances.map Instance.key).Nodup ∧
      (∀ root body, (roots bodies)[root]? = some body → ∀ call ∈ callsIn [] body.node,
        ∃ id made, callee s (.root root) call = some id ∧ s.instances[id]? = some made ∧
          Needs bodies body.home call made.key) ∧
      (∀ copy here, s.instances[copy]? = some here → ∀ call ∈ callsIn [] here.body,
        ∃ id made, callee s (.copy copy) call = some id ∧ s.instances[id]? = some made ∧
          Needs bodies here.home call made.key) ∧
      ∀ bodies', bodies.Perm bodies' → ∀ steps' s', of steps' bodies' = some (.ok s') →
        keysOf s' = keysOf s := by
  refine ⟨of_ends bodies, ?_⟩
  intro steps s answered
  obtain ⟨helpers, gathers⟩ := gathers_of answered
  have made := made_of answered
  have least := made.isLeast gathers
  have mapped : ∀ standing home calls, Resolved bodies s standing home calls → ∀ call ∈ calls,
      ∃ id made, callee s standing call = some id ∧ s.instances[id]? = some made ∧
        Needs bodies home call made.key := by
    intro standing home calls resolved call member
    obtain ⟨held, bound, id, holds, reaches, fits, reached, keyed⟩ := resolved call member
    obtain ⟨target, stands, named⟩ := (made.sound.byKey _ _).mp keyed
    exact ⟨id, target, reached, stands, held, bound, holds, reaches, fits, named⟩
  refine ⟨least, made.sound.nodup, ?_, ?_, ?_⟩
  · intro root body stands call member
    have there := made.roots root body stands
    rw [Nat.zero_add] at there
    exact mapped _ _ _ there call member
  · intro copy here stands call member
    have inside := (List.getElem?_eq_some_iff.mp stands).1
    exact mapped _ _ _ (made.copies copy here inside stands) call member
  · intro bodies' order steps' s' answered'
    obtain ⟨helpers', gathers'⟩ := gathers_of answered'
    have least' := (made_of answered').isLeast gathers'
    apply Set.Subset.antisymm
    · exact least'.2 (least.1.of_perm order)
    · exact least.2 (least'.1.of_perm order.symm)

def swapping : Body :=
  let reached := Reference.own "m" "swap"
  let body := Node.node (.call (.helper reached)) (.prim .int)
    [.node (.read 1) (.var 1) [], .node (.read 0) (.var 0) []]
  ⟨"m", .helper ⟨reached, [.var 0, .var 1], body⟩, body⟩

def swapped : Body :=
  ⟨"m", .value, .node (.call (.helper (.own "m" "swap"))) (.prim .int)
    [.node (.int 1) (.prim .int) [], .node (.str "a") (.prim .string) []]⟩

example : (match of 3 [swapping, swapped] with
    | some (.ok s) => s.instances.map Instance.types
    | _ => []) =
    [[some (.prim .int), some (.prim .string)], [some (.prim .string), some (.prim .int)]] := by
  rfl

def turning : Body :=
  let reached := Reference.own "m" "turn"
  let body := Node.node (.call (.helper reached)) (.prim .int)
    ((List.range 17).map fun place =>
      .node (.read ((place + 1) % 17)) (.var ((place + 1) % 17)) [])
  ⟨"m", .helper ⟨reached, (List.range 17).map .var, body⟩, body⟩

def turnedAt (text : ℕ) : Node :=
  .node (.call (.helper (.own "m" "turn"))) (.prim .int)
    ((List.range 17).map fun place =>
      if place = text then .node (.str "a") (.prim .string) []
      else .node (.int 1) (.prim .int) [])

def passedTo (name : String) (argument : Node) : Node :=
  .node (.call (.helper (.own "m" name))) (.prim .int) [argument]

def chain : List String → List Body
  | [] => []
  | [last] => [⟨"m", .helper ⟨.own "m" last, [.var 0], turnedAt 1⟩, turnedAt 1⟩]
  | name :: next :: rest =>
    let body := passedTo next (.node (.read 0) (.var 0) [])
    ⟨"m", .helper ⟨.own "m" name, [.var 0], body⟩, body⟩ :: chain (next :: rest)

def turnings : List Body :=
  turning :: chain ["a", "b", "c", "d", "e", "f", "g", "h", "i", "j", "k", "l", "m", "n", "o", "p"]

def direct : Body := ⟨"m", .value, turnedAt 0⟩

def around : Body := ⟨"m", .value, passedTo "a" (.node (.int 1) (.prim .int) [])⟩

def copiesMade : Option (Except Stop Specializations) → Option ℕ
  | some (.ok s) => some s.instances.length
  | some (.error _) | none => none

def isRefused : Option (Except Stop Specializations) → Bool
  | some (.error (.notLowered _)) => true
  | some (.error (.panicked _)) | some (.ok _) | none => false

/-- The seventeenth copy is one too many where the turning helper is the first to reach it, and is
    none of its own copies' where the other helpers are: the same bodies are refused in one order
    and answered in the other. -/
theorem listed_order_matters :
    (turnings ++ [direct, around]).Perm (turnings ++ [around, direct]) ∧
      (∃ what, of 50 (turnings ++ [direct, around]) = some (.error (.notLowered what))) ∧
      ∃ s, of 50 (turnings ++ [around, direct]) = some (.ok s) ∧ s.instances.length = 33 := by
  have refused : isRefused (of 50 (turnings ++ [direct, around])) = true := by decide +kernel
  have made : copiesMade (of 50 (turnings ++ [around, direct])) = some 33 := by decide +kernel
  refine ⟨List.Perm.append_left turnings (List.Perm.swap around direct []), ?_, ?_⟩
  · cases answered : of 50 (turnings ++ [direct, around]) with
    | none => simp [answered, isRefused] at refused
    | some outcome =>
      rcases outcome with (what | what) | s
      · exact ⟨what, rfl⟩
      · simp [answered, isRefused] at refused
      · simp [answered, isRefused] at refused
  · cases answered : of 50 (turnings ++ [around, direct]) with
    | none => simp [answered, copiesMade] at made
    | some outcome =>
      rcases outcome with stop | s
      · simp [answered, copiesMade] at made
      · exact ⟨s, rfl, by simpa [answered, copiesMade] using made⟩

end SoutherNative.SpecializeEnds
