import SoutherNative.Specialize

set_option autoImplicit false

/-!
# The copies made are the copies needed

Making the copies ends: a copy stands under the copies it was made from, no helper stands more than
a fixed number of times among those, and a body makes as many copies as it has calls. What is made
where it answers is the least set of copies closed under the calls of what is lowered.
-/
namespace SoutherNative.SpecializeSound
open Transport Nodes Specialize

def Holds (bodies : List Body) (home : String) (held : Held) : Prop :=
  ∃ body ∈ bodies, body.home = home ∧ body.owner.helper? = some held

/-- What a call in a body standing in `home` needs: the copy of the helper it names at the types it
    is called at. -/
def Needs (bodies : List Body) (home : String) (call : Called) (key : Key) : Prop :=
  ∃ held bound, Holds bodies home held ∧ held.reached = call.reached ∧
    called held call.handed call.answers = some bound ∧
    key = (home, held.reached, byNumber bound held.variables)

/-- A set of copies that holds each helper with no variables and is closed under every lowered call
    in a root body and in the settled body of every copy in it. -/
structure Closed (bodies : List Body) (keys : Set Key) : Prop where
  shut : ∀ home held, Holds bodies home held → held.variables = 0 →
    (home, held.reached, []) ∈ keys
  root : ∀ body ∈ roots bodies, ∀ call ∈ callsIn [] body.node, ∀ key,
    Needs bodies body.home call key → key ∈ keys
  copy : ∀ home held types, Holds bodies home held → (home, held.reached, types) ∈ keys →
    ∀ call ∈ callsIn [] (bodyOf held types), ∀ key, Needs bodies home call key → key ∈ keys

def Needed (bodies : List Body) (key : Key) : Prop :=
  ∀ keys, Closed bodies keys → key ∈ keys

def keysOf (s : Specializations) : Set Key :=
  {key | ∃ made ∈ s.instances, made.key = key}

lemma Closed.of_perm {bodies bodies' : List Body} (order : bodies.Perm bodies') {keys : Set Key}
    (closed : Closed bodies keys) : Closed bodies' keys := by
  have holds : ∀ home held, Holds bodies' home held ↔ Holds bodies home held := by
    intro home held
    constructor
    · rintro ⟨body, member, rest⟩
      exact ⟨body, order.mem_iff.mpr member, rest⟩
    · rintro ⟨body, member, rest⟩
      exact ⟨body, order.mem_iff.mp member, rest⟩
  have needs : ∀ home call key, Needs bodies' home call key → Needs bodies home call key := by
    rintro home call key ⟨held, bound, holding, rest⟩
    exact ⟨held, bound, (holds home held).mp holding, rest⟩
  refine ⟨?_, ?_, ?_⟩
  · intro home held holding
    exact closed.shut home held ((holds home held).mp holding)
  · intro body member call calls key needing
    have stands : body ∈ roots bodies := (order.filter _).mem_iff.mpr member
    exact closed.root body stands call calls key (needs _ _ _ needing)
  · intro home held types holding stands call calls key needing
    exact closed.copy home held types ((holds home held).mp holding) stands call calls key
      (needs _ _ _ needing)

lemma unique_ok {K V : Type} [DecidableEq K] {index index' : K → Option V} {key : K} {value : V}
    (h : unique index key value = .ok index') :
    index key = none ∧ index' = Function.update index key (some value) := by
  unfold unique at h
  cases found : index key with
  | some old => simp [found] at h
  | none =>
    simp only [found, Except.ok.injEq] at h
    exact ⟨rfl, h.symm⟩

lemma unique_keeps {K V : Type} [DecidableEq K] {index index' : K → Option V} {key : K}
    {value : V} (h : unique index key value = .ok index') (other : K) (kept : V)
    (stood : index other = some kept) : index' other = some kept := by
  have put := unique_ok h
  have apart : other ≠ key := by
    intro same
    rw [same, put.1] at stood
    cases stood
  rw [put.2, Function.update_of_ne apart]
  exact stood

def Gathers (bodies : List Body) (helpers : HelperKey → Option Held) : Prop :=
  ∀ home reached held, helpers (home, reached) = some held ↔
    Holds bodies home held ∧ held.reached = reached

lemma gathered_spec {bodies before : List Body} {helpers helpers' : HelperKey → Option Held}
    (sofar : Gathers before helpers) (h : gathered bodies helpers = .ok helpers') :
    Gathers (before ++ bodies) helpers' := by
  induction bodies generalizing before helpers with
  | nil =>
    cases h
    simpa using sofar
  | cons body rest ih =>
    unfold gathered at h
    have split : before ++ body :: rest = (before ++ [body]) ++ rest := by simp
    rw [split]
    cases owned : body.owner.helper? with
    | none =>
      simp only [owned] at h
      apply ih _ h
      intro home reached held
      rw [sofar home reached held]
      simp [Holds, or_and_right, exists_or, owned]
    | some held =>
      simp only [owned] at h
      cases put : unique helpers (body.home, held.reached) held with
      | error stop => simp [put, bind, Except.bind] at h
      | ok table =>
        simp only [put, bind, Except.bind] at h
        apply ih _ h
        have placed := unique_ok put
        intro home reached other
        rw [placed.2]
        by_cases same : (home, reached) = (body.home, held.reached)
        · cases same
          have free : ∀ held', Holds before body.home held' → held'.reached ≠ held.reached := by
            intro held' holding reaches
            have stood := (sofar body.home held.reached held').mpr ⟨holding, reaches⟩
            rw [placed.1] at stood
            cases stood
          simp only [Function.update_self, Option.some.injEq]
          constructor
          · rintro rfl
            exact ⟨⟨body, by simp, rfl, owned⟩, rfl⟩
          · rintro ⟨⟨body', member, home', owned'⟩, reaches⟩
            rcases List.mem_append.mp member with early | late
            · exact absurd reaches (free other ⟨body', early, home', owned'⟩)
            · cases List.mem_singleton.mp late
              rw [owned] at owned'
              exact Option.some.inj owned'
        · rw [Function.update_of_ne same, sofar home reached other]
          constructor
          · rintro ⟨⟨body', member, rest⟩, reaches⟩
            exact ⟨⟨body', List.mem_append_left _ member, rest⟩, reaches⟩
          · rintro ⟨⟨body', member, home', owned'⟩, reaches⟩
            rcases List.mem_append.mp member with early | late
            · exact ⟨⟨body', early, home', owned'⟩, reaches⟩
            · cases List.mem_singleton.mp late
              rw [owned] at owned'
              cases owned'
              exact absurd (by rw [home', reaches]) same

lemma gathers_of_gathered {bodies : List Body} {helpers : HelperKey → Option Held}
    (h : gathered bodies (fun _ => none) = .ok helpers) : Gathers bodies helpers := by
  have none : Gathers [] fun _ => none := by
    intro home reached held
    simp [Holds]
  simpa using gathered_spec none h

structure Extends (s s' : Specializations) : Prop where
  instances : s.instances <+: s'.instances
  byKey : ∀ key id, s.byKey key = some id → s'.byKey key = some id
  reached : ∀ place id, s.reached place = some id → s'.reached place = some id

lemma Extends.refl (s : Specializations) : Extends s s :=
  ⟨List.prefix_rfl, fun _ _ => id, fun _ _ => id⟩

lemma Extends.trans {s t u : Specializations} (first : Extends s t) (second : Extends t u) :
    Extends s u where
  instances := first.instances.trans second.instances
  byKey key id h := second.byKey key id (first.byKey key id h)
  reached place id h := second.reached place id (first.reached place id h)

/-- What holds of the copies at every point of the making: each stands under its key and no other
    does, each is of a helper the program holds, and each is needed. -/
structure Sound (bodies : List Body) (s : Specializations) : Prop where
  byKey : ∀ key id, s.byKey key = some id ↔
    ∃ made, s.instances[id]? = some made ∧ made.key = key
  held : ∀ made ∈ s.instances, Holds bodies made.home made.held
  needed : ∀ made ∈ s.instances, Needed bodies made.key

lemma sound_new (bodies : List Body) : Sound bodies Specializations.new where
  byKey := by simp [Specializations.new]
  held := by simp [Specializations.new]
  needed := by simp [Specializations.new]

/-- A copy is one that stands already, and nothing changes, or is made at the end of the others. -/
lemma copy_cases {s s' : Specializations} {parent : Option ℕ} {home : String} {held : Held}
    {types : List (Option Ty)} {id : ℕ} (h : copy s parent home held types = .ok (id, s')) :
    (s.byKey (home, held.reached, types) = some id ∧ s' = s) ∨
    (s.byKey (home, held.reached, types) = none ∧ id = s.instances.length ∧
      along s.instances parent (home, held.reached) < DEPTH ∧
      s'.byKey = Function.update s.byKey (home, held.reached, types) (some id) ∧
      s'.reached = s.reached ∧
      ∃ ordinal, s'.instances = s.instances ++ [⟨home, held, types, ordinal, parent⟩]) := by
  unfold copy at h
  cases found : s.byKey (home, held.reached, types) with
  | some old =>
    simp only [found, Except.ok.injEq, Prod.mk.injEq] at h
    exact Or.inl ⟨by rw [h.1], h.2.symm⟩
  | none =>
    right
    simp only [found] at h
    cases spent : allowed s.reentered (along s.instances parent (home, held.reached))
        (home, held.reached) with
    | none => simp [spent] at h
    | some reentered =>
      have shallow : along s.instances parent (home, held.reached) < DEPTH := by
        by_contra deep
        simp [allowed, not_lt.mp deep] at spent
      simp only [spent, unique, found, bind, Except.bind, pure, Except.pure, Except.ok.injEq,
        Prod.mk.injEq] at h
      rw [← h.2, ← h.1]
      exact ⟨rfl, rfl, shallow, rfl, rfl, _, rfl⟩

lemma copy_spec {bodies : List Body} {s s' : Specializations} {parent : Option ℕ} {home : String}
    {held : Held} {types : List (Option Ty)} {id : ℕ} (sound : Sound bodies s)
    (holds : Holds bodies home held) (needed : Needed bodies (home, held.reached, types))
    (h : copy s parent home held types = .ok (id, s')) :
    Sound bodies s' ∧ Extends s s' ∧ s'.byKey (home, held.reached, types) = some id := by
  rcases copy_cases h with ⟨stood, rfl⟩ | ⟨free, rfl, -, byKey, reached, ordinal, instances⟩
  · exact ⟨sound, Extends.refl s', stood⟩
  · refine ⟨⟨?_, ?_, ?_⟩, ⟨?_, ?_, ?_⟩, ?_⟩
    · intro key id
      rw [byKey, instances]
      by_cases same : key = (home, held.reached, types)
      · subst same
        simp only [Function.update_self, Option.some.injEq]
        constructor
        · rintro rfl
          exact ⟨_, List.getElem?_concat_length, rfl⟩
        · rintro ⟨made, stands, named⟩
          -- No copy made before stands under this key.
          by_contra other
          have early : s.instances[id]? = some made := by
            have bound := (List.getElem?_eq_some_iff.mp stands).1
            simp only [List.length_append, List.length_singleton] at bound
            rwa [List.getElem?_append_left (by omega)] at stands
          have stood := (sound.byKey _ id).mpr ⟨made, early, named⟩
          rw [free] at stood
          cases stood
      · rw [Function.update_of_ne same, sound.byKey key id]
        constructor
        · rintro ⟨made, stands, named⟩
          have bound := (List.getElem?_eq_some_iff.mp stands).1
          exact ⟨made, by rwa [List.getElem?_append_left bound], named⟩
        · rintro ⟨made, stands, named⟩
          have bound := (List.getElem?_eq_some_iff.mp stands).1
          simp only [List.length_append, List.length_singleton] at bound
          by_cases last : id = s.instances.length
          · subst last
            rw [List.getElem?_concat_length] at stands
            cases stands
            exact absurd named.symm same
          · rw [List.getElem?_append_left (by omega)] at stands
            exact ⟨made, stands, named⟩
    · intro made member
      rw [instances] at member
      rcases List.mem_append.mp member with early | late
      · exact sound.held made early
      · cases List.mem_singleton.mp late
        exact holds
    · intro made member
      rw [instances] at member
      rcases List.mem_append.mp member with early | late
      · exact sound.needed made early
      · cases List.mem_singleton.mp late
        exact needed
    · rw [instances]
      exact List.prefix_append _ _
    · intro key old stood
      have apart : key ≠ (home, held.reached, types) := by
        rintro rfl
        rw [free] at stood
        cases stood
      rw [byKey, Function.update_of_ne apart]
      exact stood
    · intro place old stood
      rw [reached]
      exact stood
    · rw [byKey, Function.update_self]

def Resolved (bodies : List Body) (s : Specializations) (standing : Standing) (home : String)
    (calls : List Called) : Prop :=
  ∀ call ∈ calls, ∃ held bound id, Holds bodies home held ∧ held.reached = call.reached ∧
    called held call.handed call.answers = some bound ∧
    callee s standing call = some id ∧
    s.byKey (home, held.reached, byNumber bound held.variables) = some id

lemma Resolved.of_extends {bodies : List Body} {s s' : Specializations} {standing : Standing}
    {home : String} {calls : List Called} (later : Extends s s')
    (resolved : Resolved bodies s standing home calls) :
    Resolved bodies s' standing home calls := by
  intro call member
  obtain ⟨held, bound, id, holds, reaches, binds, reached, keyed⟩ := resolved call member
  exact ⟨held, bound, id, holds, reaches, binds, later.reached _ _ reached,
    later.byKey _ _ keyed⟩

/-- What reading the first call of a body does: its helper is held, it fits what the helper takes,
    its copy is made, and it is mapped to that copy. -/
lemma resolve_cons {helpers : HelperKey → Option Held} {parent : Option ℕ} {standing : Standing}
    {home : String} {call : Called} {rest : List Called} {s s' : Specializations}
    (h : resolve helpers parent standing home (call :: rest) s = .ok s') :
    ∃ held bound id t reached, helpers (home, call.reached) = some held ∧
      called held call.handed call.answers = some bound ∧
      copy s parent home held (byNumber bound held.variables) = .ok (id, t) ∧
      unique t.reached (standing, call.place) id = .ok reached ∧
      resolve helpers parent standing home rest { t with reached } = .ok s' := by
  unfold resolve at h
  cases found : helpers (home, call.reached) with
  | none => simp [found] at h
  | some held =>
    simp only [found] at h
    cases fits : called held call.handed call.answers with
    | none => simp [fits] at h
    | some bound =>
      simp only [fits] at h
      cases made : copy s parent home held (byNumber bound held.variables) with
      | error stop => simp [made, bind, Except.bind] at h
      | ok pair =>
        simp only [made, bind, Except.bind] at h
        cases put : unique pair.2.reached (standing, call.place) pair.1 with
        | error stop => simp [put] at h
        | ok reached =>
          simp only [put] at h
          exact ⟨held, bound, pair.1, pair.2, reached, rfl, fits, made, put, h⟩

lemma sound_reached {bodies : List Body} {s : Specializations} (sound : Sound bodies s)
    (reached : Standing × List ℕ → Option ℕ) : Sound bodies { s with reached } :=
  ⟨sound.byKey, sound.held, sound.needed⟩

lemma extends_reached {s : Specializations} {place : Standing × List ℕ} {id : ℕ}
    {reached : Standing × List ℕ → Option ℕ} (put : unique s.reached place id = .ok reached) :
    Extends s { s with reached } :=
  ⟨List.prefix_rfl, fun _ _ => fun h => h, unique_keeps put⟩

lemma resolve_spec {bodies : List Body} {helpers : HelperKey → Option Held}
    (gathers : Gathers bodies helpers) {parent : Option ℕ} {standing : Standing} {home : String}
    {calls : List Called} {s s' : Specializations} (sound : Sound bodies s)
    (needed : ∀ call ∈ calls, ∀ key, Needs bodies home call key → Needed bodies key)
    (h : resolve helpers parent standing home calls s = .ok s') :
    Sound bodies s' ∧ Extends s s' ∧ Resolved bodies s' standing home calls := by
  induction calls generalizing s with
  | nil =>
    cases h
    exact ⟨sound, Extends.refl _, by simp [Resolved]⟩
  | cons call rest ih =>
    obtain ⟨held, bound, id, t, reached, found, fits, made, put, onward⟩ := resolve_cons h
    have holding := (gathers home call.reached held).mp found
    have needs : Needs bodies home call (home, held.reached, byNumber bound held.variables) :=
      ⟨held, bound, holding.1, holding.2, fits, rfl⟩
    have first := copy_spec sound holding.1 (needed call (by simp) _ needs) made
    have mapped := extends_reached put
    have others := ih (sound_reached first.1 reached)
      (fun call member => needed call (List.mem_cons_of_mem _ member)) onward
    refine ⟨others.1, first.2.1.trans (mapped.trans others.2.1), ?_⟩
    intro call' member
    rcases List.mem_cons.mp member with rfl | later
    · have here : reached (standing, call'.place) = some id := by
        rw [(unique_ok put).2, Function.update_self]
      exact ⟨held, bound, id, holding.1, holding.2, fits, others.2.1.reached _ _ here,
        others.2.1.byKey _ _ first.2.2⟩
    · exact others.2.2 call' later

def Shut (bodies : List Body) (s : Specializations) : Prop :=
  ∀ body ∈ bodies, ∀ held, body.owner.helper? = some held → held.variables = 0 →
    ∃ id, s.byKey (body.home, held.reached, []) = some id

lemma copyShut_spec {bodies rest : List Body} {s s' : Specializations} (sound : Sound bodies s)
    (part : ∀ body ∈ rest, body ∈ bodies) (h : copyShut rest s = .ok s') :
    Sound bodies s' ∧ Extends s s' ∧ Shut rest s' := by
  induction rest generalizing s with
  | nil =>
    cases h
    exact ⟨sound, Extends.refl _, by simp [Shut]⟩
  | cons body rest ih =>
    unfold copyShut at h
    have others : ∀ body ∈ rest, body ∈ bodies :=
      fun body member => part body (List.mem_cons_of_mem _ member)
    cases owned : body.owner.helper? with
    | none =>
      simp only [owned] at h
      have onward := ih sound others h
      refine ⟨onward.1, onward.2.1, ?_⟩
      intro body' member held owned'
      rcases List.mem_cons.mp member with rfl | later
      · rw [owned] at owned'
        cases owned'
      · exact onward.2.2 body' later held owned'
    | some held =>
      simp only [owned] at h
      by_cases shut : held.variables = 0
      · rw [if_pos shut] at h
        cases made : copy s none body.home held [] with
        | error stop => simp [made, bind, Except.bind] at h
        | ok pair =>
          simp only [made, bind, Except.bind] at h
          have holding : Holds bodies body.home held := ⟨body, part body (by simp), rfl, owned⟩
          have first := copy_spec sound holding
            (fun keys closed => closed.shut body.home held holding shut) made
          have onward := ih first.1 others h
          refine ⟨onward.1, first.2.1.trans onward.2.1, ?_⟩
          intro body' member held' owned'
          rcases List.mem_cons.mp member with rfl | later
          · rw [owned] at owned'
            cases owned'
            exact fun _ => ⟨pair.1, onward.2.1.byKey _ _ first.2.2⟩
          · exact onward.2.2 body' later held' owned'
      · rw [if_neg shut] at h
        have onward := ih sound others h
        refine ⟨onward.1, onward.2.1, ?_⟩
        intro body' member held' owned' shut'
        rcases List.mem_cons.mp member with rfl | later
        · rw [owned] at owned'
          cases owned'
          exact absurd shut' shut
        · exact onward.2.2 body' later held' owned' shut'

/-- The roots from the one at `place` on are resolved. -/
def RootsResolved (bodies : List Body) (s : Specializations) (place : ℕ) (rest : List Body) :
    Prop :=
  ∀ i body, rest[i]? = some body →
    Resolved bodies s (.root (place + i)) body.home (callsIn [] body.node)

lemma resolveRoots_spec {bodies : List Body} {helpers : HelperKey → Option Held}
    (gathers : Gathers bodies helpers) {place : ℕ} {rest : List Body} {s s' : Specializations}
    (sound : Sound bodies s) (part : ∀ body ∈ rest, body ∈ roots bodies)
    (h : resolveRoots helpers place rest s = .ok s') :
    Sound bodies s' ∧ Extends s s' ∧ RootsResolved bodies s' place rest := by
  induction rest generalizing place s with
  | nil =>
    cases h
    exact ⟨sound, Extends.refl _, by simp [RootsResolved]⟩
  | cons body rest ih =>
    unfold resolveRoots at h
    cases read : resolve helpers none (.root place) body.home (callsIn [] body.node) s with
    | error stop => simp [read, bind, Except.bind] at h
    | ok t =>
      simp only [read, bind, Except.bind] at h
      have needed : ∀ call ∈ callsIn [] body.node, ∀ key,
          Needs bodies body.home call key → Needed bodies key := by
        intro call member key needs keys closed
        exact closed.root body (part body (by simp)) call member key needs
      have first := resolve_spec gathers sound needed read
      have onward := ih first.1 (fun body member => part body (List.mem_cons_of_mem _ member)) h
      refine ⟨onward.1, first.2.1.trans onward.2.1, ?_⟩
      intro i body' stands
      cases i with
      | zero =>
        cases stands
        exact first.2.2.of_extends onward.2.1
      | succ i =>
        have there := onward.2.2 i body' (by simpa using stands)
        rwa [show place + 1 + i = place + (i + 1) by omega] at there

/-- The copies before the one at `place` are read. -/
def CopiesResolved (bodies : List Body) (s : Specializations) (place : ℕ) : Prop :=
  ∀ id made, id < place → s.instances[id]? = some made →
    Resolved bodies s (.copy id) made.home (callsIn [] made.body)

lemma getElem?_of_front {α : Type} {xs ys : List α} (front : xs <+: ys) {i : ℕ}
    (inside : i < xs.length) : ys[i]? = xs[i]? := by
  obtain ⟨rest, rfl⟩ := front
  exact List.getElem?_append_left inside

lemma walk_spec {bodies : List Body} {helpers : HelperKey → Option Held}
    (gathers : Gathers bodies helpers) {steps place : ℕ} {s s' : Specializations}
    (sound : Sound bodies s) (inside : place ≤ s.instances.length)
    (read : CopiesResolved bodies s place) (h : walk helpers steps place s = some (.ok s')) :
    Sound bodies s' ∧ Extends s s' ∧ CopiesResolved bodies s' s'.instances.length := by
  induction steps generalizing place s with
  | zero => cases h
  | succ steps ih =>
    unfold walk at h
    cases stands : s.instances[place]? with
    | none =>
      simp only [stands, Option.some.injEq, Except.ok.injEq] at h
      subst h
      have ended : s.instances.length = place := by
        have := List.getElem?_eq_none_iff.mp stands
        omega
      exact ⟨sound, Extends.refl s, by rw [ended]; exact read⟩
    | some here =>
      simp only [stands] at h
      cases done : resolve helpers (some place) (.copy place) here.home (callsIn [] here.body) s with
      | error stop => simp [done] at h
      | ok t =>
        simp only [done] at h
        have before := (List.getElem?_eq_some_iff.mp stands).1
        have member : here ∈ s.instances := List.mem_of_getElem? stands
        have needed : ∀ call ∈ callsIn [] here.body, ∀ key,
            Needs bodies here.home call key → Needed bodies key := by
          intro call calls key needs keys closed
          exact closed.copy here.home here.held here.types (sound.held here member)
            (sound.needed here member keys closed) call calls key needs
        have first := resolve_spec gathers sound needed done
        have longer := first.2.1.instances.length_le
        have onward := ih first.1 (by omega) ?_ h
        · exact ⟨onward.1, first.2.1.trans onward.2.1, onward.2.2⟩
        · intro id made early stood
          by_cases last : id = place
          · subst last
            rw [getElem?_of_front first.2.1.instances before, stands] at stood
            cases stood
            exact first.2.2
          · rw [getElem?_of_front first.2.1.instances (by omega)] at stood
            exact (read id made (by omega) stood).of_extends first.2.1

/-- What is true of the copies where making them answers. -/
structure Made (bodies : List Body) (s : Specializations) : Prop where
  sound : Sound bodies s
  shut : Shut bodies s
  roots : RootsResolved bodies s 0 (roots bodies)
  copies : CopiesResolved bodies s s.instances.length

lemma begun_spec {bodies : List Body} {helpers : HelperKey → Option Held} {s : Specializations}
    (h : begun bodies = .ok (helpers, s)) :
    Gathers bodies helpers ∧ Sound bodies s ∧ Shut bodies s ∧
      RootsResolved bodies s 0 (roots bodies) := by
  unfold begun at h
  cases table : gathered bodies fun _ => none with
  | error stop => simp [table, bind, Except.bind] at h
  | ok held =>
    cases shut : copyShut bodies Specializations.new with
    | error stop => simp [table, shut, bind, Except.bind] at h
    | ok t =>
      cases rooted : resolveRoots held 0 (roots bodies) t with
      | error stop => simp [table, shut, rooted, bind, Except.bind] at h
      | ok u =>
        simp only [table, shut, rooted, bind, Except.bind, pure, Except.pure, Except.ok.injEq,
          Prod.mk.injEq] at h
        obtain ⟨rfl, rfl⟩ := h
        have gathers := gathers_of_gathered table
        have first := copyShut_spec (sound_new bodies) (fun _ member => member) shut
        have second := resolveRoots_spec gathers first.1 (fun _ member => member) rooted
        refine ⟨gathers, second.1, ?_, second.2.2⟩
        intro body member helper owned closes
        obtain ⟨id, stood⟩ := first.2.2 body member helper owned closes
        exact ⟨id, second.2.1.byKey _ _ stood⟩

lemma made_of {bodies : List Body} {steps : ℕ} {s : Specializations}
    (h : of steps bodies = some (.ok s)) : Made bodies s := by
  unfold of at h
  cases start : begun bodies with
  | error stop => simp [start] at h
  | ok pair =>
    simp only [start] at h
    obtain ⟨gathers, sound, shut, rooted⟩ := begun_spec start
    have walked := walk_spec gathers sound (Nat.zero_le _)
      (fun id _ early => absurd early (Nat.not_lt_zero id)) h
    refine ⟨walked.1, ?_, ?_, walked.2.2⟩
    · intro body member held owned closes
      obtain ⟨id, stood⟩ := shut body member held owned closes
      exact ⟨id, walked.2.1.byKey _ _ stood⟩
    · intro i body stands
      exact (rooted i body stands).of_extends walked.2.1

lemma Sound.mem_of_byKey {bodies : List Body} {s : Specializations} (sound : Sound bodies s)
    {key : Key} {id : ℕ} (stood : s.byKey key = some id) : key ∈ keysOf s := by
  obtain ⟨made, stands, named⟩ := (sound.byKey key id).mp stood
  exact ⟨made, List.mem_of_getElem? stands, named⟩

/-- Two helpers a module of the program holds under one reference are one. -/
lemma Gathers.unique {bodies : List Body} {helpers : HelperKey → Option Held}
    (gathers : Gathers bodies helpers) {home : String} {held held' : Held}
    (holds : Holds bodies home held) (holds' : Holds bodies home held')
    (reaches : held.reached = held'.reached) : held = held' := by
  have first := (gathers home held'.reached held).mpr ⟨holds, reaches⟩
  have second := (gathers home held'.reached held').mpr ⟨holds', rfl⟩
  rw [first] at second
  exact Option.some.inj second

/-- A call a state resolves needs a copy that stands. -/
lemma Resolved.mem {bodies : List Body} {helpers : HelperKey → Option Held}
    (gathers : Gathers bodies helpers) {s : Specializations} (sound : Sound bodies s)
    {standing : Standing} {home : String} {calls : List Called}
    (resolved : Resolved bodies s standing home calls) {call : Called} (member : call ∈ calls)
    {key : Key} (needs : Needs bodies home call key) : key ∈ keysOf s := by
  obtain ⟨held, bound, id, holds, reaches, fits, -, keyed⟩ := resolved call member
  obtain ⟨held', bound', holds', reaches', fits', rfl⟩ := needs
  have same := gathers.unique holds' holds (reaches'.trans reaches.symm)
  subst same
  rw [fits] at fits'
  cases fits'
  exact sound.mem_of_byKey keyed

lemma gathers_of {bodies : List Body} {steps : ℕ} {s : Specializations}
    (h : of steps bodies = some (.ok s)) : ∃ helpers, Gathers bodies helpers := by
  unfold of at h
  cases start : begun bodies with
  | error stop => simp [start] at h
  | ok pair => exact ⟨pair.1, (begun_spec start).1⟩

/-- The copies made where making them answers are closed under what is lowered, and in every set
    that is. -/
lemma Made.isLeast {bodies : List Body} {helpers : HelperKey → Option Held} {s : Specializations}
    (gathers : Gathers bodies helpers) (made : Made bodies s) :
    IsLeast {keys | Closed bodies keys} (keysOf s) := by
  constructor
  · refine ⟨?_, ?_, ?_⟩
    · rintro home held ⟨body, member, rfl, owned⟩ closes
      obtain ⟨id, stood⟩ := made.shut body member held owned closes
      exact made.sound.mem_of_byKey stood
    · intro body member call calls key needs
      obtain ⟨i, stands⟩ := List.mem_iff_getElem?.mp member
      exact (made.roots i body stands).mem gathers made.sound calls needs
    · rintro home held types holds ⟨instanceAt, member, named⟩ call calls key needs
      obtain ⟨id, stands⟩ := List.mem_iff_getElem?.mp member
      have inside := (List.getElem?_eq_some_iff.mp stands).1
      simp only [Instance.key, Prod.mk.injEq] at named
      obtain ⟨rfl, reaches, rfl⟩ := named
      have same := gathers.unique holds (made.sound.held instanceAt member) reaches.symm
      subst same
      exact (made.copies id instanceAt inside stands).mem gathers made.sound calls needs
  · rintro keys closed key ⟨instanceAt, member, rfl⟩
    exact made.sound.needed instanceAt member keys closed

lemma Sound.nodup {bodies : List Body} {s : Specializations} (sound : Sound bodies s) :
    (s.instances.map Instance.key).Nodup := by
  rw [List.nodup_iff_injective_getElem]
  intro i j same
  simp only [List.getElem_map] at same
  have first := (sound.byKey _ _).mpr
    ⟨_, List.getElem?_eq_getElem (by simpa using i.isLt), rfl⟩
  have second := (sound.byKey _ _).mpr
    ⟨_, List.getElem?_eq_getElem (by simpa using j.isLt), same.symm⟩
  rw [first] at second
  exact Fin.ext (Option.some.inj second)

end SoutherNative.SpecializeSound
