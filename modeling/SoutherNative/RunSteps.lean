import SoutherNative.Runs

set_option autoImplicit false

/-!
# Each step of a thread with runs

What a step can do is said once, and each thing it can do keeps what holds of every state reached:
that the links, the scopes and the root runs of a thread are what its stack says, and that what is
still to be read is still held.
-/
namespace SoutherNative.Runs

structure Lasts (before after : State) (run : ℕ) : Prop where
  identity : (after.runs run).identity = (before.runs run).identity
  thread : (after.runs run).thread = (before.runs run).thread
  live : (after.runs run).live = (before.runs run).live
  held : (before.runs run).held ⊆ (after.runs run).held

/-- So is a run no step on its thread was made in. -/
structure Stays (before after : State) (run : ℕ) : Prop extends Lasts before after run where
  child : (after.runs run).child = (before.runs run).child
  calls : (after.runs run).calls = (before.runs run).calls

/-- No run is open that was not, and what is inside of none that ended is as it was. -/
structure Kept (before after : State) : Prop where
  next : before.next ≤ after.next
  runs : ∀ run, (after.runs run).live = true → run < before.next →
    (before.runs run).live = true ∧ (after.runs run).thread = (before.runs run).thread ∧
      ∀ outer ≤ run, (before.runs outer).live = true →
        (before.runs outer).thread = (before.runs run).thread → Lasts before after outer

section

variable {before after : State} {thread : ℕ}

lemma Reaches.lasts {bound : ℕ} {room : Room} (reaches : Reaches before thread bound room)
    (lasts : Lasts before after room.run) : Reaches after thread bound room := by
  obtain ⟨live, on, le, held⟩ := reaches
  exact ⟨lasts.live.trans live, lasts.thread.trans on, le, lasts.held held⟩

lemma Placed.lasts {stack : List Frame} (placed : Placed before thread stack)
    (next : before.next ≤ after.next)
    (lasts : ∀ run ∈ openIn stack, ∀ outer ≤ run, (before.runs outer).live = true →
      (before.runs outer).thread = thread → Lasts before after outer) :
    Placed after thread stack := by
  induction stack with
  | nil => trivial
  | cons frame rest ih =>
    cases frame with
    | within identity run scope outer =>
      obtain ⟨its, on, live, made, inner, stood, below⟩ := placed
      have same := lasts run (by simp [openIn]) run le_rfl live on
      refine ⟨same.identity.trans its, same.thread.trans on, same.live.trans live,
        made.trans_le next, inner, stood, ih below fun other inside => ?_⟩
      exact lasts other (List.mem_cons_of_mem _ inside)
    | call run depth reads =>
      obtain ⟨inside, count, held, below⟩ := placed
      refine ⟨inside, count, fun room member => ?_, ih below lasts⟩
      have reaches := held room member
      exact reaches.lasts (lasts run inside room.run reaches.2.2.1 reaches.1 reaches.2.1)

lemma Linked.stays {inside : Option ℕ} {runs : List ℕ} (linked : Linked before inside runs)
    (stays : ∀ run ∈ runs, (after.runs run).child = (before.runs run).child) :
    Linked after inside runs := by
  induction runs generalizing inside with
  | nil => trivial
  | cons run rest ih =>
    exact ⟨(stays run (by simp)).trans linked.1,
      ih linked.2 fun other member => stays other (List.mem_cons_of_mem _ member)⟩

/-- A thread whose runs, scopes and root runs are as they were stands as it did. -/
lemma Stands.stays {stack : List Frame} (stands : Stands before thread stack)
    (next : before.next ≤ after.next)
    (stays : ∀ run, (before.runs run).live = true → (before.runs run).thread = thread →
      Stays before after run)
    (scopes : ∀ identity, (after.arenas identity thread).scopes =
      (before.arenas identity thread).scopes)
    (roots : ∀ identity, (identity, thread) ∈ after.roots ↔ (identity, thread) ∈ before.roots) :
    Stands after thread stack := by
  have its := fun run (inside : run ∈ openIn stack) =>
    stays run (stands.placed.opened inside).2.1 (stands.placed.opened inside).1
  constructor
  · exact stands.placed.lasts next fun _ _ outer _ live on => (stays outer live on).toLasts
  · intro identity
    exact (stands.linked identity).stays fun run opened =>
      (its run (openIn_of_opensOf opened)).child
  · intro identity
    rw [scopes]
    exact stands.scopes identity
  · intro run inside
    rw [(its run inside).calls]
    exact stands.counted run inside
  · intro identity
    rw [roots]
    exact stands.roots identity

lemma Ref.Stands.kept {ref : Ref} (stands : ref.Stands before) (kept : Kept before after) :
    ref.Stands after := by
  obtain ⟨made, reads⟩ := stands
  refine ⟨made.trans_le kept.next, fun live room member => ?_⟩
  obtain ⟨was, on, lasts⟩ := kept.runs ref.run live made
  have reaches := reads was room member
  rw [on]
  exact reaches.lasts (lasts room.run reaches.2.2.1 reaches.1 reaches.2.1)

lemma Capability.Stands.kept {capability : Capability} (stands : capability.Stands before)
    (kept : Kept before after) (capabilities : before.capabilities ⊆ after.capabilities) :
    capability.Stands after := by
  cases capability with
  | noValue => trivial
  | made run array rooms requires =>
    obtain ⟨made, held, stood⟩ := stands
    refine ⟨made.trans_le kept.next, fun live room member => ?_, fun required member => ?_⟩
    · obtain ⟨was, on, lasts⟩ := kept.runs run live made
      obtain ⟨of, its⟩ := held was room member
      exact ⟨of, (lasts run le_rfl was rfl).held its⟩
    · exact (stood required member).imp_right fun member => capabilities member

/-- What holds of every state holds after a step of one thread, where it holds of the thread and of
    what was made in the step. -/
lemma Inv.kept (inv : Inv before) (kept : Kept before after)
    (stays : ∀ run, (before.runs run).live = true → (before.runs run).thread ≠ thread →
      Stays before after run)
    (frames : ∀ other, other ≠ thread → after.frames other = before.frames other)
    (scopes : ∀ other, other ≠ thread → ∀ identity,
      (after.arenas identity other).scopes = (before.arenas identity other).scopes)
    (roots : ∀ other, other ≠ thread → ∀ identity,
      ((identity, other) ∈ after.roots ↔ (identity, other) ∈ before.roots))
    (nodup : after.roots.Nodup)
    (holds : ∀ run, ∀ room ∈ (after.runs run).held,
      room ∈ (before.runs run).held ∨ room.run = run)
    (stands : Stands after thread (after.frames thread))
    (live : ∀ run, (after.runs run).live = true →
      (after.runs run).thread = thread ∧ run ∈ openIn (after.frames thread) ∨
        (after.runs run).thread ≠ thread ∧ run < before.next)
    (refs : ∀ ref ∈ after.refs, ref ∈ before.refs ∨ ref.Stands after)
    (capabilities : before.capabilities ⊆ after.capabilities)
    (made : ∀ capability ∈ after.capabilities,
      capability ∈ before.capabilities ∨ capability.Stands after)
    (released : ∀ room ∈ after.released, room ∈ before.released ∨
      (after.runs room.run).live = false ∧ room.run < after.next) : Inv after := by
  constructor
  · intro other
    by_cases here : other = thread
    · rw [here]
      exact stands
    · rw [frames other here]
      exact (inv.stands other).stays kept.next
        (fun run live on => stays run live fun same => here (on.symm.trans same))
        (scopes other here) (roots other here)
  · intro run open_
    rcases live run open_ with ⟨on, inside⟩ | ⟨away, made⟩
    · rw [on]
      exact inside
    · obtain ⟨was, on, -⟩ := kept.runs run open_ made
      rw [frames _ away, on]
      exact inv.live run was
  · exact nodup
  · intro run room member
    exact (holds run room member).elim (inv.holds run room) id
  · intro ref member
    exact (refs ref member).elim (fun old => (inv.refs ref old).kept kept) id
  · intro capability member
    exact (made capability member).elim
      (fun old => (inv.capabilities capability old).kept kept capabilities) id
  · intro room member
    rcases released room member with old | ended
    · obtain ⟨dead, made⟩ := inv.released room old
      refine ⟨?_, made.trans_le kept.next⟩
      by_contra alive
      have live : (after.runs room.run).live = true := by simpa using alive
      rw [(kept.runs room.run live made).1] at dead
      cases dead
    · exact ended

/-- A run that is live was made. -/
lemma Inv.made (inv : Inv before) {run : ℕ} (live : (before.runs run).live = true) :
    run < before.next :=
  ((inv.stands _).placed.opened (inv.live run live)).2.2

lemma Kept.of_lasts (next : before.next ≤ after.next)
    (lasts : ∀ run, run < before.next → Lasts before after run) : Kept before after := by
  refine ⟨next, fun run live made => ?_⟩
  have its := lasts run made
  exact ⟨its.live.symm.trans live, its.thread, fun outer le _ _ => lasts outer (le.trans_lt made)⟩

end

structure Quiet (before after : State) (thread : ℕ) : Prop where
  lasts : ∀ run, Lasts before after run
  child : ∀ run, (after.runs run).child = (before.runs run).child
  holds : ∀ run, ∀ room ∈ (after.runs run).held, room ∈ (before.runs run).held ∨ room.run = run
  calls : ∀ run, (before.runs run).thread ≠ thread →
    (after.runs run).calls = (before.runs run).calls
  next : after.next = before.next
  arenas : after.arenas = before.arenas
  roots : after.roots = before.roots
  released : after.released = before.released
  frames : ∀ other, other ≠ thread → after.frames other = before.frames other
  opens : ∀ identity, opensOf identity (after.frames thread) =
    opensOf identity (before.frames thread)
  inside : openIn (after.frames thread) = openIn (before.frames thread)
  scopes : ∀ identity, scopesOf identity (after.frames thread) =
    scopesOf identity (before.frames thread)

lemma Quiet.inv {before after : State} {thread : ℕ} (quiet : Quiet before after thread)
    (inv : Inv before) (placed : Placed after thread (after.frames thread))
    (counted : ∀ run ∈ openIn (after.frames thread),
      (after.runs run).calls = callsOf run (after.frames thread))
    (refs : ∀ ref ∈ after.refs, ref ∈ before.refs ∨ ref.Stands after)
    (capabilities : before.capabilities ⊆ after.capabilities)
    (made : ∀ capability ∈ after.capabilities,
      capability ∈ before.capabilities ∨ capability.Stands after) : Inv after := by
  have stands := inv.stands thread
  refine inv.kept (.of_lasts quiet.next.ge fun run _ => quiet.lasts run)
    (fun run _ away => ⟨quiet.lasts run, quiet.child run, quiet.calls run away⟩) quiet.frames
    (fun other _ identity => by rw [quiet.arenas]) (fun other _ identity => by rw [quiet.roots])
    (quiet.roots ▸ inv.nodup) quiet.holds ?_ ?_ refs capabilities made
    fun room member => .inl (quiet.released ▸ member)
  · constructor
    · exact placed
    · intro identity
      rw [quiet.opens]
      exact (stands.linked identity).stays fun run _ => quiet.child run
    · intro identity
      rw [quiet.arenas, quiet.scopes]
      exact stands.scopes identity
    · exact counted
    · intro identity
      rw [quiet.roots, quiet.opens]
      exact stands.roots identity
  · intro run live
    rw [(quiet.lasts run).live] at live
    rw [(quiet.lasts run).thread, quiet.inside]
    by_cases on : (before.runs run).thread = thread
    · exact .inl ⟨on, on ▸ inv.live run live⟩
    · exact .inr ⟨on, inv.made live⟩

section

variable {state : State} {thread run : ℕ}

lemma onRun_runs (change : Run → Run) (other : ℕ) : ((state.onRun run change).runs other) =
    if other = run then change (state.runs run) else state.runs other := by
  unfold State.onRun
  by_cases same : other = run
  · rw [if_pos same, same]
    exact Function.update_self _ _ _
  · rw [if_neg same]
    exact Function.update_of_ne same _ _

lemma onRun_lasts (change : Run → Run)
    (same : (change (state.runs run)).identity = (state.runs run).identity ∧
      (change (state.runs run)).thread = (state.runs run).thread ∧
      (change (state.runs run)).live = (state.runs run).live ∧
      (state.runs run).held ⊆ (change (state.runs run)).held) (other : ℕ) :
    Lasts state (state.onRun run change) other := by
  obtain ⟨identity, on, live, held⟩ := same
  by_cases its : other = run
  · subst its
    constructor
    all_goals
      rw [onRun_runs, if_pos rfl]
      assumption
  · constructor
    all_goals rw [onRun_runs, if_neg its]
    exact List.Subset.refl _

lemma room_lasts (run count other : ℕ) : Lasts state (state.room run count).1 other := by
  have lasts : Lasts state (state.onRun run fun it =>
      { it with held := it.held ++ (state.room run count).2 }) other :=
    onRun_lasts _ ⟨rfl, rfl, rfl, List.subset_append_left _ _⟩ other
  exact lasts

lemma Inv.room (inv : Inv state) (run count : ℕ) : Inv (state.room run count).1 := by
  have same : ∀ other, ((state.room run count).1.runs other).child = (state.runs other).child ∧
      ((state.room run count).1.runs other).calls = (state.runs other).calls := by
    intro other
    unfold State.room
    dsimp only
    rw [onRun_runs]
    by_cases its : other = run
    · rw [if_pos its, its]
      exact ⟨rfl, rfl⟩
    · rw [if_neg its]
      exact ⟨rfl, rfl⟩
  have holds : ∀ other, ∀ room ∈ ((state.room run count).1.runs other).held,
      room ∈ (state.runs other).held ∨ room.run = other := by
    intro other room member
    unfold State.room at member
    dsimp only at member
    rw [onRun_runs] at member
    by_cases its : other = run
    · rw [if_pos its] at member
      rw [its]
      refine (List.mem_append.mp member).imp_right fun new => ?_
      obtain ⟨place, -, rfl⟩ := List.mem_map.mp new
      rfl
    · rw [if_neg its] at member
      exact .inl member
  have quiet : Quiet state (state.room run count).1 0 :=
    ⟨room_lasts run count, fun other => (same other).1, holds, fun other _ => (same other).2,
      rfl, rfl, rfl, rfl,
      fun _ _ => rfl, fun _ => rfl, rfl, fun _ => rfl⟩
  refine quiet.inv inv ?_ ?_ (fun ref member => .inl member) (List.Subset.refl _)
    fun capability member => .inl member
  · exact (inv.stands 0).placed.lasts le_rfl fun _ _ outer _ _ _ => room_lasts run count outer
  · intro other inside
    rw [(same other).2]
    exact (inv.stands 0).counted other inside

lemma room_held (run count : ℕ) : ∀ room ∈ (state.room run count).2,
    room.run = run ∧ room ∈ ((state.room run count).1.runs run).held := by
  intro room member
  unfold State.room
  dsimp only
  rw [onRun_runs, if_pos rfl]
  refine ⟨?_, List.mem_append_right _ member⟩
  obtain ⟨place, -, rfl⟩ := List.mem_map.mp member
  rfl

lemma Inv.addRef (inv : Inv state) {ref : Ref} (stands : ref.Stands state) :
    Inv { state with refs := state.refs ++ [ref] } := by
  refine ⟨fun other => ?_, inv.live, inv.nodup, inv.holds, fun other member => ?_,
    inv.capabilities, inv.released⟩
  · exact (inv.stands other).stays le_rfl
      (fun run _ _ => ⟨⟨rfl, rfl, rfl, List.Subset.refl _⟩, rfl, rfl⟩) (fun _ => rfl) fun _ => .rfl
  rcases List.mem_append.mp member with old | new
  · exact inv.refs other old
  · rw [List.mem_singleton.mp new]
    exact stands

lemma Inv.addCapability (inv : Inv state) {capability : Capability}
    (stands : capability.Stands state) :
    Inv { state with capabilities := state.capabilities ++ [capability] } := by
  have kept : Kept state { state with capabilities := state.capabilities ++ [capability] } :=
    .of_lasts le_rfl fun run _ => ⟨rfl, rfl, rfl, List.Subset.refl _⟩
  refine ⟨fun other => ?_, inv.live, inv.nodup, inv.holds, inv.refs, fun other member => ?_,
    inv.released⟩
  · exact (inv.stands other).stays le_rfl
      (fun run _ _ => ⟨⟨rfl, rfl, rfl, List.Subset.refl _⟩, rfl, rfl⟩) (fun _ => rfl) fun _ => .rfl
  · refine Capability.Stands.kept ?_ kept (List.subset_append_left _ _)
    rcases List.mem_append.mp member with old | new
    · exact inv.capabilities other old
    · rw [List.mem_singleton.mp new]
      exact stands

lemma Inv.hostFunction (inv : Inv state) (checked : state.checkMaking thread run = .ok ()) :
    Inv { (state.room run 2).1 with
      refs := (state.room run 2).1.refs ++ [⟨run, (state.room run 2).2⟩] } := by
  obtain ⟨live, on, -⟩ := checkMaking_ok checked
  refine (inv.room run 2).addRef ⟨inv.made live, fun alive room member => ?_⟩
  obtain ⟨of, held⟩ := room_held run 2 room member
  unfold Reaches
  rw [of]
  exact ⟨alive, rfl, le_rfl, held⟩

lemma Inv.implements (inv : Inv state) (checked : state.checkMaking thread run = .ok ()) :
    Inv { (state.room run 3).1 with capabilities :=
      (state.room run 3).1.capabilities ++ [.made run none (state.room run 3).2 []] } := by
  obtain ⟨live, on, -⟩ := checkMaking_ok checked
  exact (inv.room run 3).addCapability
    ⟨inv.made live, fun _ => room_held run 3, fun required member => by cases member⟩

lemma capability_cases (state : State) (capability : ℕ) :
    state.capability capability = .noValue ∨ state.capability capability ∈ state.capabilities := by
  unfold State.capability
  cases there : state.capabilities[capability]? with
  | none => exact .inl rfl
  | some capability => exact .inr (List.mem_of_getElem? there)

lemma Inv.binds (inv : Inv state) (checked : state.checkMaking thread run = .ok ())
    (first second : ℕ) (requires : List ℕ) :
    let (made, array) := state.room run first
    let (made, rooms) := made.room run second
    Inv { made with capabilities := made.capabilities ++
      [.made run array.head? rooms (requires.map made.capability)] } := by
  dsimp only
  obtain ⟨live, on, -⟩ := checkMaking_ok checked
  refine ((inv.room run first).room run second).addCapability
    ⟨inv.made live, fun _ room member => ?_, fun required member => ?_⟩
  · rcases List.mem_append.mp member with array | rooms
    · have head := List.mem_of_mem_head? (Option.mem_toList.mp array)
      obtain ⟨of, held⟩ := room_held run first room head
      exact ⟨of, (room_lasts run second run).held held⟩
    · exact room_held run second room rooms
  · obtain ⟨asked, -, rfl⟩ := List.mem_map.mp member
    exact capability_cases _ asked

end

section

variable {state : State} {thread run : ℕ}

lemma recounted (calls : ℕ) (stack : List Frame) (other : ℕ) :
    ((state.onRun run fun it => { it with calls := calls }).onStack thread stack).runs other =
      if other = run then { state.runs run with calls := calls } else state.runs other :=
  onRun_runs (fun it => { it with calls := calls }) other

lemma recount_lasts (calls : ℕ) (stack : List Frame) (other : ℕ) :
    Lasts state ((state.onRun run fun it => { it with calls := calls }).onStack thread stack)
      other := by
  have its := onRun_lasts (fun it : Run => { it with calls := calls })
    (⟨rfl, rfl, rfl, List.Subset.refl (state.runs run).held⟩) other
  exact ⟨its.identity, its.thread, its.live, its.held⟩

lemma recount_child (calls : ℕ) (stack : List Frame) (other : ℕ) :
    (((state.onRun run fun it => { it with calls := calls }).onStack thread stack).runs
      other).child = (state.runs other).child := by
  rw [recounted]
  by_cases its : other = run
  · rw [if_pos its, its]
  · rw [if_neg its]

/-- A thread's stack changed by a call alone, and how many go on in a run of the thread. -/
lemma quiet_recount (calls : ℕ) {stack : List Frame} (on : (state.runs run).thread = thread)
    (opens : ∀ identity, opensOf identity stack = opensOf identity (state.frames thread))
    (inside : openIn stack = openIn (state.frames thread))
    (scopes : ∀ identity, scopesOf identity stack = scopesOf identity (state.frames thread)) :
    Quiet state ((state.onRun run fun it => { it with calls := calls }).onStack thread stack)
      thread := by
  have frames : ((state.onRun run fun it => { it with calls := calls }).onStack thread
      stack).frames thread = stack := Function.update_self _ _ _
  constructor
  · exact recount_lasts calls stack
  · exact recount_child calls stack
  · intro other room member
    rw [recounted] at member
    by_cases its : other = run
    · rw [if_pos its] at member
      exact .inl (its ▸ member)
    · rw [if_neg its] at member
      exact .inl member
  · intro other away
    have apart : other ≠ run := fun same => away (same ▸ on)
    rw [recounted, if_neg apart]
  · rfl
  · rfl
  · rfl
  · rfl
  · intro other away
    exact Function.update_of_ne away _ _
  · intro identity
    rw [frames, opens]
  · rw [frames, inside]
  · intro identity
    rw [frames, scopes]

lemma Inv.recount (inv : Inv state) (calls : ℕ) {stack : List Frame}
    (on : (state.runs run).thread = thread)
    (opens : ∀ identity, opensOf identity stack = opensOf identity (state.frames thread))
    (inside : openIn stack = openIn (state.frames thread))
    (scopes : ∀ identity, scopesOf identity stack = scopesOf identity (state.frames thread))
    (placed : Placed state thread stack) (count : calls = callsOf run stack)
    (others : ∀ other, other ≠ run → callsOf other stack = callsOf other (state.frames thread)) :
    Inv ((state.onRun run fun it => { it with calls := calls }).onStack thread stack) := by
  have frames : ((state.onRun run fun it => { it with calls := calls }).onStack thread
      stack).frames thread = stack := Function.update_self _ _ _
  refine (quiet_recount calls on opens inside scopes).inv inv ?_ ?_ (fun ref member => .inl member)
    (List.Subset.refl _) fun capability member => .inl member
  · rw [frames]
    exact placed.lasts le_rfl fun _ _ outer _ _ _ => recount_lasts calls stack outer
  · intro other there
    rw [frames] at there ⊢
    rw [recounted]
    by_cases its : other = run
    · rw [if_pos its, its]
      exact count
    · rw [if_neg its, others other its]
      rw [inside] at there
      exact (inv.stands thread).counted other there

lemma Inv.returns (inv : Inv state) {depth : ℕ} {reads : List Room} {rest : List Frame}
    (top : state.frames thread = .call run depth reads :: rest) :
    Inv ((state.onRun run fun it => { it with calls := depth }).onStack thread rest) := by
  have stands := inv.stands thread
  rw [top] at stands
  obtain ⟨inside, count, -, below⟩ := stands.placed
  refine inv.recount depth (below.opened inside).1 ?_ ?_ ?_ below count ?_
  · intro identity
    rw [top]
    rfl
  · rw [top]
    rfl
  · intro identity
    rw [top]
    rfl
  · intro other apart
    rw [top]
    exact (if_neg (Ne.symm apart)).symm

lemma Inv.calls (inv : Inv state) (checked : state.checkMaking thread run = .ok ())
    {reads : List Room} (reaches : ∀ room ∈ reads, Reaches state thread run room) :
    Inv ((state.onRun run fun it => { it with calls := it.calls + 1 }).onStack thread
      (.call run (state.runs run).calls reads :: state.frames thread)) := by
  have stands := inv.stands thread
  obtain ⟨live, on, -⟩ := checkMaking_ok checked
  have inside := inv.live run live
  rw [on] at inside
  have count := stands.counted run inside
  exact inv.recount ((state.runs run).calls + 1) on (fun _ => rfl) rfl (fun _ => rfl)
    ⟨inside, count, reaches, stands.placed⟩
    (by
      unfold callsOf
      rw [if_pos rfl, count])
    fun other apart => if_neg (Ne.symm apart)

/-- What a call going on is handed besides. -/
lemma Inv.answers (inv : Inv state) {depth : ℕ} {there more : List Room} {rest : List Frame}
    (top : state.frames thread = .call run depth there :: rest)
    (reaches : ∀ room ∈ more, Reaches state thread run room) :
    Inv (state.onStack thread (.call run depth (there ++ more) :: rest)) := by
  have stands := inv.stands thread
  rw [top] at stands
  obtain ⟨inside, count, held, below⟩ := stands.placed
  have frames : (state.onStack thread (.call run depth (there ++ more) :: rest)).frames thread =
    .call run depth (there ++ more) :: rest := Function.update_self _ _ _
  have quiet : Quiet state (state.onStack thread (.call run depth (there ++ more) :: rest))
      thread := by
    constructor
    · exact fun _ => ⟨rfl, rfl, rfl, List.Subset.refl _⟩
    · exact fun _ => rfl
    · exact fun _ _ member => .inl member
    · exact fun _ _ => rfl
    · rfl
    · rfl
    · rfl
    · rfl
    · exact fun other away => Function.update_of_ne away _ _
    · intro identity
      rw [frames, top]
      rfl
    · rw [frames, top]
      rfl
    · intro identity
      rw [frames, top]
      rfl
  refine quiet.inv inv ?_ ?_ (fun ref member => .inl member) (List.Subset.refl _)
    fun capability member => .inl member
  · rw [frames]
    have handed : Placed state thread (.call run depth (there ++ more) :: rest) :=
      ⟨inside, count, fun room member => (List.mem_append.mp member).elim (held room)
        (reaches room), below⟩
    exact handed.lasts le_rfl fun _ _ _ _ _ _ => ⟨rfl, rfl, rfl, List.Subset.refl _⟩
  · intro other there
    rw [frames] at there ⊢
    exact stands.counted other there

end

section

variable {state : State} {thread : ℕ}

lemma enter_runs (identity : ℕ) (outer : Option ℕ) (other : ℕ) :
    (state.enter thread identity outer).runs other =
      if other = state.next then ⟨identity, thread, true, none, 0, []⟩ else state.runs other := by
  by_cases same : other = state.next
  · rw [if_pos same, same]
    exact Function.update_self _ _ _
  · rw [if_neg same]
    exact Function.update_of_ne same _ _

lemma enter_frames (identity : ℕ) (outer : Option ℕ) :
    (state.enter thread identity outer).frames thread =
      .within identity state.next (state.arenas identity thread).tokens outer ::
        state.frames thread :=
  Function.update_self _ _ _

lemma enter_scopes (identity : ℕ) (outer : Option ℕ) :
    (((state.enter thread identity outer).arenas identity thread).scopes.map Prod.fst) =
      (state.arenas identity thread).tokens ::
        (state.arenas identity thread).scopes.map Prod.fst := by
  simp [State.enter, State.scopeOpen, Scopes.scopeOpen]

lemma enter_elsewhere (identity : ℕ) (outer : Option ℕ) {library on : ℕ}
    (apart : library ≠ identity ∨ on ≠ thread) :
    ((state.enter thread identity outer).arenas library on).scopes =
      (state.arenas library on).scopes := by
  unfold State.enter State.scopeOpen
  dsimp only
  by_cases same : library = identity
  · rw [if_pos same, if_neg (apart.resolve_left (not_not.mpr same))]
  · rw [if_neg same]

/-- The innermost run of a runtime has another inside it from here on. -/
lemma Linked.inner {after : State} {inside : Option ℕ} {runs : List ℕ} {innermost : Option ℕ}
    (linked : Linked state inside runs) (sorted : runs.Pairwise (· > ·))
    (others : ∀ run ∈ runs, runs.head? ≠ some run →
      (after.runs run).child = (state.runs run).child)
    (its : ∀ run, runs.head? = some run → (after.runs run).child = innermost) :
    Linked after innermost runs := by
  cases runs with
  | nil => trivial
  | cons first rest =>
    refine ⟨its first rfl, linked.2.stays fun run member => ?_⟩
    have apart := List.rel_of_pairwise_cons sorted member
    refine others run (List.mem_cons_of_mem _ member) fun same => ?_
    cases same
    exact lt_irrefl _ apart

lemma Inv.entered {before after : State} (inv : Inv before) {identity : ℕ} {outer : Option ℕ}
    {scope : BitVec 64} (stood : outer = (opensOf identity (before.frames thread)).head?)
    (runs : ∀ other, after.runs other =
      if other = before.next then ⟨identity, thread, true, none, 0, []⟩
      else if outer = some other then { before.runs other with child := some before.next }
      else before.runs other)
    (next : after.next = before.next + 1)
    (frames : after.frames thread =
      .within identity before.next scope outer :: before.frames thread)
    (elsewhere : ∀ other, other ≠ thread → after.frames other = before.frames other)
    (scopes : (after.arenas identity thread).scopes.map Prod.fst =
      scope :: (before.arenas identity thread).scopes.map Prod.fst)
    (others : ∀ library on, library ≠ identity ∨ on ≠ thread →
      (after.arenas library on).scopes = (before.arenas library on).scopes)
    (roots : ∀ library on, (library, on) ∈ after.roots ↔
      (library, on) ∈ before.roots ∨ library = identity ∧ on = thread)
    (nodup : after.roots.Nodup) (refs : after.refs = before.refs)
    (capabilities : after.capabilities = before.capabilities)
    (released : after.released = before.released) : Inv after := by
  have stands := inv.stands thread
  have sorted := opensOf_sorted stands.placed identity
  have lasts : ∀ run, run < before.next → Lasts before after run := by
    intro run made
    by_cases its : outer = some run
    · constructor
      all_goals rw [runs, if_neg made.ne, if_pos its]
      exact List.Subset.refl _
    · constructor
      all_goals rw [runs, if_neg made.ne, if_neg its]
      exact List.Subset.refl _
  have same : ∀ run, run < before.next → outer ≠ some run → after.runs run = before.runs run :=
    fun run made apart => (runs run).trans ((if_neg made.ne).trans (if_neg apart))
  have within : ∀ run, outer = some run → (before.runs run).thread = thread ∧
      (before.runs run).identity = identity := by
    intro run its
    rw [its] at stood
    have opened := List.mem_of_mem_head? stood.symm
    exact ⟨(stands.placed.opened (openIn_of_opensOf opened)).1,
      ((opensOf_iff stands.placed).mp opened).2⟩
  have opens : ∀ library, opensOf library (after.frames thread) =
      if identity = library then before.next :: opensOf library (before.frames thread)
      else opensOf library (before.frames thread) := by
    intro library
    rw [frames]
    rfl
  have first : after.runs before.next = ⟨identity, thread, true, none, 0, []⟩ := by
    rw [runs, if_pos rfl]
  refine inv.kept (.of_lasts (by omega) lasts) ?_ elsewhere
    (fun other away library => others library other (.inr away)) ?_ nodup ?_ ?_ ?_
    (fun ref member => .inl (refs ▸ member)) (by rw [capabilities]; exact List.Subset.refl _)
    (fun capability member => .inl (capabilities ▸ member))
    (fun room member => .inl (released ▸ member))
  · intro run live away
    have made := inv.made live
    have its := same run made fun its => away (within run its).1
    exact ⟨lasts run made, congrArg Run.child its, congrArg Run.calls its⟩
  · intro other away library
    rw [roots]
    exact ⟨fun either => either.resolve_right fun both => away both.2, .inl⟩
  · intro run room member
    by_cases new : run = before.next
    · rw [new, first] at member
      cases member
    · rw [runs, if_neg new] at member
      by_cases its : outer = some run
      · rw [if_pos its] at member
        exact .inl member
      · rw [if_neg its] at member
        exact .inl member
  · constructor
    · rw [frames]
      refine ⟨by rw [first], by rw [first], by rw [first], by omega,
        fun other inside => (stands.placed.opened inside).2.2, stood,
        stands.placed.lasts (by omega) fun run inside inner le _ _ => ?_⟩
      exact lasts inner (le.trans_lt (stands.placed.opened inside).2.2)
    · intro library
      rw [opens]
      by_cases its : identity = library
      · subst its
        rw [if_pos rfl]
        refine ⟨by rw [first], (stands.linked identity).inner sorted ?_ ?_⟩
        · intro run opened notHead
          rw [same run (stands.placed.opened (openIn_of_opensOf opened)).2.2 (stood ▸ notHead)]
        · intro run head
          have made := (stands.placed.opened
            (openIn_of_opensOf (List.mem_of_mem_head? head))).2.2
          rw [runs, if_neg made.ne, if_pos (stood.trans head)]
      · rw [if_neg its]
        refine (stands.linked library).stays fun run opened => ?_
        have ⟨inside, of⟩ := (opensOf_iff stands.placed).mp opened
        rw [same run (stands.placed.opened inside).2.2 fun inner =>
          its ((within run inner).2.symm.trans of)]
    · intro library
      rw [frames]
      unfold scopesOf
      by_cases its : identity = library
      · subst its
        rw [if_pos rfl, scopes, stands.scopes]
      · rw [if_neg its, others library thread (.inl (Ne.symm its)), stands.scopes]
    · intro run inside
      rw [frames] at inside ⊢
      unfold openIn at inside
      unfold callsOf
      rcases List.mem_cons.mp inside with rfl | further
      · rw [first]
        exact (callsOf_eq_zero stands.placed fun inside =>
          lt_irrefl _ (stands.placed.opened inside).2.2).symm
      · have made := (stands.placed.opened further).2.2
        rw [← stands.counted run further, runs, if_neg made.ne]
        split
        · rfl
        · rfl
    · intro library
      rw [roots, opens]
      by_cases its : identity = library
      · simp [its]
      · rw [if_neg its, ← stands.roots]
        exact ⟨fun either => either.resolve_right fun both => its both.1.symm, .inl⟩
  · intro run live
    by_cases new : run = before.next
    · rw [new, first, frames]
      exact .inl ⟨rfl, by simp [openIn]⟩
    · have was : (before.runs run).live = true ∧
          (after.runs run).thread = (before.runs run).thread := by
        rw [runs, if_neg new] at live ⊢
        by_cases its : outer = some run
        · rw [if_pos its] at live ⊢
          exact ⟨live, rfl⟩
        · rw [if_neg its] at live ⊢
          exact ⟨live, rfl⟩
      rw [was.2, frames]
      by_cases on : (before.runs run).thread = thread
      · exact .inl ⟨on, List.mem_cons_of_mem _ (on ▸ inv.live run was.1)⟩
      · exact .inr ⟨on, inv.made was.1⟩

/-- A root run is opened where none of its runtime is on the thread. -/
lemma Inv.runs (inv : Inv state) {identity : ℕ} (none_ : (identity, thread) ∉ state.roots) :
    Inv ({ state with roots := state.roots ++ [(identity, thread)] }.enter thread identity
      none) := by
  have nothing : opensOf identity (state.frames thread) = [] := by
    by_contra some
    exact none_ (((inv.stands thread).roots identity).mpr some)
  refine inv.entered (by rw [nothing]; rfl) ?_ rfl (enter_frames identity none) ?_
    (enter_scopes identity none) (fun library on apart => enter_elsewhere identity none apart) ?_ ?_
    rfl rfl rfl
  · intro other
    rw [enter_runs, if_neg (nofun : ¬ none = some other)]
  · intro other away
    exact Function.update_of_ne away _ _
  · intro library on
    refine List.mem_append.trans (or_congr .rfl ?_)
    rw [List.mem_singleton, Prod.mk.injEq]
  · refine List.nodup_append.mpr ⟨inv.nodup, List.nodup_singleton _, ?_⟩
    intro key member other new
    rw [List.mem_singleton.mp new]
    exact fun same => none_ (same ▸ member)

/-- A run is opened inside the innermost. -/
lemma Inv.scopes (inv : Inv state) {run : ℕ} (checked : state.checkMaking thread run = .ok ()) :
    Inv ((state.onRun run fun it => { it with child := some state.next }).enter thread
      ((state.onRun run fun it => { it with child := some state.next }).runs run).identity
      (some run)) := by
  have head := inv.innermost checked
  have identity : ((state.onRun run fun it => { it with child := some state.next }).runs
      run).identity = (state.runs run).identity := by
    rw [onRun_runs, if_pos rfl]
  rw [identity]
  refine inv.entered head.symm ?_ rfl (enter_frames _ _) ?_ (enter_scopes _ _)
    (fun library on apart => enter_elsewhere _ _ apart) ?_ inv.nodup rfl rfl rfl
  · intro other
    rw [enter_runs, onRun_runs]
    by_cases new : other = state.next
    · rw [if_pos new]
      exact if_pos new
    · rw [if_neg new]
      refine (if_neg new).trans ?_
      by_cases its : other = run
      · rw [if_pos its, if_pos (congrArg some its.symm), its]
      · rw [if_neg its, if_neg fun same => its (Option.some.inj same).symm]
  · intro other away
    exact Function.update_of_ne away _ _
  · intro library on
    refine ⟨.inl, fun either => either.elim id ?_⟩
    rintro ⟨rfl, rfl⟩
    refine ((inv.stands on).roots _).mpr fun nothing => ?_
    rw [nothing] at head
    cases head

lemma Inv.ended {before after : State} (inv : Inv before) {identity ended : ℕ}
    {outer : Option ℕ} {scope : BitVec 64} {rest : List Frame}
    (top : before.frames thread = .within identity ended scope outer :: rest)
    (runs : ∀ other, after.runs other =
      if other = ended then { before.runs ended with live := false, calls := 0, held := [] }
      else if outer = some other then { before.runs other with child := none }
      else before.runs other)
    (next : after.next = before.next) (frames : after.frames thread = rest)
    (elsewhere : ∀ other, other ≠ thread → after.frames other = before.frames other)
    (scopes : (before.arenas identity thread).scopes.map Prod.fst =
      scope :: scopesOf identity rest →
        (after.arenas identity thread).scopes.map Prod.fst = scopesOf identity rest)
    (others : ∀ library on, library ≠ identity ∨ on ≠ thread →
      (after.arenas library on).scopes = (before.arenas library on).scopes)
    (roots : ∀ library on, (library, on) ∈ after.roots ↔ (library, on) ∈ before.roots ∧
      ¬ (outer = none ∧ library = identity ∧ on = thread))
    (nodup : after.roots.Nodup) (refs : after.refs = before.refs)
    (capabilities : after.capabilities = before.capabilities)
    (released : after.released = (before.runs ended).held ++ before.released) : Inv after := by
  have stands := inv.stands thread
  rw [top] at stands
  obtain ⟨its, on, live, made, inner, stood, below⟩ := stands.placed
  have same : ∀ run, run ≠ ended → outer ≠ some run → after.runs run = before.runs run :=
    fun run other apart => (runs run).trans ((if_neg other).trans (if_neg apart))
  have lasts : ∀ run, run ≠ ended → Lasts before after run := by
    intro run other
    by_cases holder : outer = some run
    · constructor
      all_goals rw [runs, if_neg other, if_pos holder]
      exact List.Subset.refl _
    · constructor
      all_goals rw [runs, if_neg other, if_neg holder]
      exact List.Subset.refl _
  have within : ∀ run, outer = some run → (before.runs run).thread = thread ∧
      (before.runs run).identity = identity := by
    intro run holder
    rw [holder] at stood
    have opened := List.mem_of_mem_head? stood.symm
    exact ⟨(below.opened (openIn_of_opensOf opened)).1, ((opensOf_iff below).mp opened).2⟩
  have further : ∀ run ∈ openIn rest, run ≠ ended := fun run inside => (inner run inside).ne
  have opens : ∀ library, opensOf library (before.frames thread) =
      if identity = library then ended :: opensOf library rest else opensOf library rest := by
    intro library
    rw [top]
    rfl
  have dead : (after.runs ended).live = false := by
    rw [runs, if_pos rfl]
  have alive : ∀ run, (after.runs run).live = true →
      run ≠ ended ∧ (before.runs run).live = true := by
    intro run live
    have other : run ≠ ended := by
      intro same
      rw [same, dead] at live
      cases live
    exact ⟨other, (lasts run other).live.symm.trans live⟩
  -- A run that is open on this thread once the innermost has ended is one further out.
  have out : ∀ run, (before.runs run).live = true → run ≠ ended →
      (before.runs run).thread = thread → run ∈ openIn rest := by
    intro run live other on
    have inside := inv.live run live
    rw [on, top] at inside
    exact (List.mem_cons.mp inside).resolve_left other
  refine inv.kept ⟨next.ge, ?_⟩ ?_ elsewhere
    (fun other away library => others library other (.inr away)) ?_ nodup ?_ ?_ ?_
    (fun ref member => .inl (refs ▸ member)) (by rw [capabilities]; exact List.Subset.refl _)
    (fun capability member => .inl (capabilities ▸ member)) ?_
  · intro run live _
    obtain ⟨other, was⟩ := alive run live
    refine ⟨was, (lasts run other).thread, fun further le _ on' => lasts further ?_⟩
    rintro rfl
    exact absurd (inner run (out run was other (on'.symm.trans on))) (not_lt.mpr le)
  · intro run live away
    have other : run ≠ ended := fun same => away (same ▸ on)
    have unchanged := same run other fun holder => away (within run holder).1
    exact ⟨lasts run other, congrArg Run.child unchanged, congrArg Run.calls unchanged⟩
  · intro other away library
    rw [roots]
    exact ⟨And.left, fun member => ⟨member, fun both => away both.2.2⟩⟩
  · intro run room member
    rw [runs] at member
    split at member
    · cases member
    · split at member
      · exact .inl member
      · exact .inl member
  · rw [frames]
    constructor
    · exact below.lasts next.ge fun run inside outer le _ _ =>
        lasts outer (le.trans_lt (inner run inside)).ne
    · intro library
      have links := stands.linked library
      by_cases of : identity = library
      · subst of
        unfold opensOf at links
        rw [if_pos rfl] at links
        refine links.2.inner (opensOf_sorted below identity) ?_ ?_
        · intro run opened notHead
          rw [same run (further run (openIn_of_opensOf opened)) (stood ▸ notHead)]
        · intro run head
          rw [runs, if_neg (further run (openIn_of_opensOf (List.mem_of_mem_head? head))),
            if_pos (stood.trans head)]
      · unfold opensOf at links
        rw [if_neg of] at links
        refine links.stays fun run opened => ?_
        obtain ⟨inside, its⟩ := (opensOf_iff below).mp opened
        rw [same run (further run inside) fun holder => of ((within run holder).2.symm.trans its)]
    · intro library
      have stood := stands.scopes library
      unfold scopesOf at stood
      by_cases of : identity = library
      · subst of
        rw [if_pos rfl] at stood
        exact scopes stood
      · rw [if_neg of] at stood
        rw [others library thread (.inl (Ne.symm of)), stood]
    · intro run inside
      have count := stands.counted run (List.mem_cons_of_mem _ inside)
      unfold callsOf at count
      rw [← count, runs, if_neg (further run inside)]
      split
      · rfl
      · rfl
    · intro library
      have stood' := stands.roots library
      unfold opensOf at stood'
      rw [roots, stood']
      by_cases of : identity = library
      · subst of
        rw [if_pos rfl, stood]
        simp [List.head?_eq_none_iff]
      · rw [if_neg of]
        exact ⟨And.left, fun some => ⟨some, fun both => of both.2.1.symm⟩⟩
  · intro run live
    obtain ⟨other, was⟩ := alive run live
    rw [(lasts run other).thread, frames]
    by_cases here : (before.runs run).thread = thread
    · exact .inl ⟨here, out run was other here⟩
    · exact .inr ⟨here, inv.made was⟩
  · intro room member
    rw [released] at member
    rcases List.mem_append.mp member with held | before_
    · rw [inv.holds ended room held, next]
      exact .inr ⟨dead, made⟩
    · exact .inl before_

lemma leave_runs {identity ended : ℕ} {scope : BitVec 64} {outer : Option ℕ}
    (apart : outer ≠ some ended) (other : ℕ) :
    (state.leave thread identity ended scope outer).runs other =
      if other = ended then { state.runs ended with live := false, calls := 0, held := [] }
      else if outer = some other then { state.runs other with child := none }
      else state.runs other := by
  have expired : ∀ run, ((state.onRun ended fun it => { it with live := false }).onRun ended
      fun it => { it with calls := 0, held := [] }).runs run =
        if run = ended then { state.runs ended with live := false, calls := 0, held := [] }
        else state.runs run := by
    intro run
    rw [onRun_runs]
    by_cases its : run = ended
    · rw [if_pos its, if_pos its, onRun_runs, if_pos rfl]
    · rw [if_neg its, if_neg its, onRun_runs, if_neg its]
  cases outer with
  | none =>
    refine (expired other).trans ?_
    rw [if_neg (nofun : ¬ none = some other)]
  | some outer =>
    refine (onRun_runs (fun it : Run => { it with child := none }) other).trans ?_
    have apart : outer ≠ ended := fun same => apart (congrArg some same)
    by_cases its : other = outer
    · rw [if_pos its, its, if_neg apart, if_pos rfl]
      refine (congrArg (fun it : Run => { it with child := none }) (expired outer)).trans ?_
      rw [if_neg apart]
    · rw [if_neg its, if_neg fun same => its (Option.some.inj same).symm]
      exact expired other

/-- The innermost scope of an arena is the one closed. -/
lemma scopeClose_innermost {thread : Scopes.Thread} {scope : BitVec 64} {scopes : List (BitVec 64)}
    (innermost : thread.scopes.map Prod.fst = scope :: scopes) :
    (Scopes.scopeClose thread scope).2 = true ∧
      (Scopes.scopeClose thread scope).1.scopes.map Prod.fst = scopes := by
  unfold Scopes.scopeClose
  cases stood : thread.scopes with
  | nil =>
    rw [stood] at innermost
    cases innermost
  | cons first rest =>
    rw [stood] at innermost
    obtain ⟨its, others⟩ := List.cons.inj innermost
    dsimp only
    rw [if_pos its]
    exact ⟨rfl, others⟩

lemma leave_arenas (identity ended : ℕ) (scope : BitVec 64) (outer : Option ℕ) (library on : ℕ) :
    (state.leave thread identity ended scope outer).arenas library on =
      if library = identity ∧ on = thread then
        (Scopes.scopeClose (state.arenas identity thread) scope).1
      else state.arenas library on := by
  cases outer with
  | none => rfl
  | some outer => rfl

lemma leave_rest (identity ended : ℕ) (scope : BitVec 64) (outer : Option ℕ) :
    let after := state.leave thread identity ended scope outer
    after.next = state.next ∧ after.frames = state.frames ∧ after.refs = state.refs ∧
      after.capabilities = state.capabilities := by
  cases outer with
  | none => exact ⟨rfl, rfl, rfl, rfl⟩
  | some outer => exact ⟨rfl, rfl, rfl, rfl⟩

lemma Inv.outer_ne (inv : Inv state) {identity ended : ℕ} {outer : Option ℕ} {scope : BitVec 64}
    {rest : List Frame} (top : state.frames thread = .within identity ended scope outer :: rest) :
    outer ≠ some ended := by
  have placed := (inv.stands thread).placed
  rw [top] at placed
  obtain ⟨-, -, -, -, inner, stood, -⟩ := placed
  rintro rfl
  exact lt_irrefl _ (inner ended (openIn_of_opensOf (List.mem_of_mem_head? stood.symm)))

lemma Inv.leaves (inv : Inv state) {identity ended : ℕ} {outer : Option ℕ} {scope : BitVec 64}
    {rest : List Frame} (top : state.frames thread = .within identity ended scope outer :: rest) :
    Inv ((state.leave thread identity ended scope outer).onStack thread rest) := by
  have apart := inv.outer_ne top
  obtain ⟨next, frames, refs, capabilities⟩ :=
    @leave_rest state thread identity ended scope outer
  refine inv.ended top (leave_runs apart) ?_ (Function.update_self _ _ _) ?_ ?_ ?_ ?_ ?_ ?_ ?_ ?_
  · exact next
  · intro other away
    exact (Function.update_of_ne away _ _).trans (congrFun frames other)
  · intro innermost
    have closed := (@leave_arenas state thread identity ended scope outer identity thread).trans
      (if_pos ⟨rfl, rfl⟩)
    refine (congrArg (fun it : Scopes.Thread => it.scopes.map Prod.fst) closed).trans ?_
    exact (scopeClose_innermost innermost).2
  · intro library on elsewhere
    refine congrArg Scopes.Thread.scopes
      ((leave_arenas identity ended scope outer library on).trans (if_neg fun both => ?_))
    exact elsewhere.elim (fun apart => apart both.1) fun apart => apart both.2
  · intro library on
    cases outer with
    | none =>
      refine (inv.nodup.mem_erase_iff).trans ⟨fun both => ⟨both.2, fun all => ?_⟩, fun both =>
        ⟨fun same => both.2 ?_, both.1⟩⟩
      · exact both.1 (Prod.ext all.2.1 all.2.2)
      · exact ⟨rfl, congrArg Prod.fst same, congrArg Prod.snd same⟩
    | some outer => exact ⟨fun member => ⟨member, nofun⟩, And.left⟩
  · cases outer with
    | none => exact inv.nodup.erase _
    | some outer => exact inv.nodup
  · exact refs
  · exact capabilities
  · have held : ((state.onRun ended fun it => { it with live := false }).runs ended).held =
        (state.runs ended).held := by
      rw [onRun_runs, if_pos rfl]
    cases outer with
    | none => exact congrArg (· ++ state.released) held
    | some outer => exact congrArg (· ++ state.released) held

end

section

variable {state after : State} {thread : ℕ}

lemma mem_handed {run : ℕ} {handed : List ℕ} {refs : List Ref}
    (answered : handed.mapM (fun ref => state.inRun thread state.refs[ref]? run) = .ok refs) :
    ∀ ref ∈ refs, ∃ asked : ℕ, state.inRun thread state.refs[asked]? run = .ok ref := by
  induction handed generalizing refs with
  | nil =>
    cases answered
    exact fun ref member => nomatch member
  | cons first rest ih =>
    rw [List.mapM_cons] at answered
    rcases its : state.inRun thread state.refs[first]? run with _ | ref
    · rw [its] at answered
      cases answered
    · rcases others : rest.mapM (fun ref => state.inRun thread state.refs[ref]? run) with _ | more
      · rw [its, others] at answered
        cases answered
      · rw [its, others] at answered
        cases answered
        intro other member
        rcases List.mem_cons.mp member with rfl | further
        · exact ⟨first, its⟩
        · exact ih others other further

lemma Inv.requirements_reads (inv : Inv state) {run capability : ℕ} {reads : List Room}
    (checked : state.checkMaking thread run = .ok ())
    (answered : (state.capability capability).requirements state thread run = .ok reads) :
    ∀ room ∈ reads, Reaches state thread run room := by
  obtain ⟨opened, rfl⟩ := requirements_ok inv answered
  rcases capability_cases state capability with never | member
  · rw [never] at opened
    unfold Capability.OpenIn at opened
    exact opened.elim
  · exact reaches_of_openIn inv (inv.innermost checked) _ member opened

lemma Inv.makes (inv : Inv state) {run depth : ℕ} {there reads : List Room} {rest : List Frame}
    (top : state.frames thread = .call run depth there :: rest) (of : reads ⊆ there) :
    Inv { state with refs := state.refs ++ [⟨run, reads⟩] } := by
  have placed := (inv.stands thread).placed
  rw [top] at placed
  obtain ⟨inside, -, held, below⟩ := placed
  obtain ⟨on, live, made⟩ := below.opened inside
  refine inv.addRef ⟨made, fun _ room member => ?_⟩
  rw [on]
  exact held room (of member)

lemma Inv.parts (inv : Inv state) {ref : ℕ} {whole : Ref} {reads : List Room}
    (its : state.refs[ref]? = some whole) (of : reads ⊆ whole.reads) :
    Inv { state with refs := state.refs ++ [⟨whole.run, reads⟩] } := by
  obtain ⟨made, held⟩ := inv.refs whole (List.mem_of_getElem? its)
  exact inv.addRef ⟨made, fun live room member => held live room (of member)⟩

inductive Stepped (state : State) (thread : ℕ) : State → Prop
  | same : Stepped state thread state
  | runs {identity : ℕ} (opened : (identity, thread) ∉ state.roots) : Stepped state thread
      ({ state with roots := state.roots ++ [(identity, thread)] }.enter thread identity none)
  | scopes {run : ℕ} (checked : state.checkMaking thread run = .ok ()) : Stepped state thread
      ((state.onRun run fun it => { it with child := some state.next }).enter thread
        ((state.onRun run fun it => { it with child := some state.next }).runs run).identity
        (some run))
  | returns {run depth : ℕ} {reads : List Room} {rest : List Frame}
      (top : state.frames thread = .call run depth reads :: rest) : Stepped state thread
        ((state.onRun run fun it => { it with calls := depth }).onStack thread rest)
  | leaves {identity ended : ℕ} {outer : Option ℕ} {scope : BitVec 64} {rest : List Frame}
      (top : state.frames thread = .within identity ended scope outer :: rest) :
      Stepped state thread ((state.leave thread identity ended scope outer).onStack thread rest)
  | calls {run : ℕ} {reads : List Room} (checked : state.checkMaking thread run = .ok ())
      (reaches : Inv state → ∀ room ∈ reads, Reaches state thread run room) : Stepped state thread
        ((state.onRun run fun it => { it with calls := it.calls + 1 }).onStack thread
          (.call run (state.runs run).calls reads :: state.frames thread))
  | answers {run depth : ℕ} {there more : List Room} {rest : List Frame}
      (top : state.frames thread = .call run depth there :: rest)
      (reaches : Inv state → ∀ room ∈ more, Reaches state thread run room) :
      Stepped state thread (state.onStack thread (.call run depth (there ++ more) :: rest))
  | makes {run depth : ℕ} {there reads : List Room} {rest : List Frame}
      (top : state.frames thread = .call run depth there :: rest) (of : reads ⊆ there) :
      Stepped state thread { state with refs := state.refs ++ [⟨run, reads⟩] }
  | parts {ref : ℕ} {whole : Ref} {reads : List Room} (its : state.refs[ref]? = some whole)
      (of : reads ⊆ whole.reads) :
      Stepped state thread { state with refs := state.refs ++ [⟨whole.run, reads⟩] }
  | binds {run : ℕ} (checked : state.checkMaking thread run = .ok ()) (first second : ℕ)
      (requires : List ℕ) : Stepped state thread
        { ((state.room run first).1.room run second).1 with
          capabilities := ((state.room run first).1.room run second).1.capabilities ++
            [.made run (state.room run first).2.head? ((state.room run first).1.room run second).2
              (requires.map ((state.room run first).1.room run second).1.capability)] }
  | implements {run : ℕ} (checked : state.checkMaking thread run = .ok ()) : Stepped state thread
      { (state.room run 3).1 with capabilities :=
        (state.room run 3).1.capabilities ++ [.made run none (state.room run 3).2 []] }
  | hostFunction {run : ℕ} (checked : state.checkMaking thread run = .ok ()) :
      Stepped state thread { (state.room run 2).1 with
        refs := (state.room run 2).1.refs ++ [⟨run, (state.room run 2).2⟩] }

lemma stepped {act : Act} (done : state.tries thread act = .ok after) :
    Stepped state thread after := by
  cases act with
  | runs identity =>
    unfold State.tries at done
    dsimp only at done
    by_cases already : (identity, thread) ∈ state.roots
    · rw [if_pos already] at done
      cases done
    · rw [if_neg already] at done
      cases done
      exact .runs already
  | scopes run =>
    unfold State.tries at done
    obtain ⟨checked, done⟩ := checked_ok done
    cases done
    exact .scopes checked
  | exits =>
    unfold State.tries at done
    dsimp only at done
    split at done
    · cases done
      exact .same
    · rename_i top
      cases done
      exact .returns top
    · rename_i top
      cases done
      exact .leaves top
  | calls run capability handed =>
    unfold State.tries at done
    dsimp only at done
    rcases checked : state.checkMaking thread run with _ | _
    · rw [checked] at done
      cases done
    · rw [checked] at done
      have handing : ∀ reads : List Room,
          (Inv state → ∀ room ∈ reads, Reaches state thread run room) →
          ((do
            let given ← handed.mapM fun ref => state.inRun thread state.refs[ref]? run
            let frame := .call run (state.runs run).calls (reads ++ given.flatMap Ref.reads)
            return (state.onRun run fun it => { it with calls := it.calls + 1 }).onStack thread
              (frame :: state.frames thread)) : Except Refused State) = .ok after →
          Stepped state thread after := by
        intro reads reaches made
        rcases refs : handed.mapM fun ref => state.inRun thread state.refs[ref]? run with
          _ | given
        · rw [refs] at made
          cases made
        · rw [refs] at made
          cases made
          refine .calls checked fun inv room member => ?_
          rcases List.mem_append.mp member with required | others
          · exact reaches inv room required
          · obtain ⟨ref, its, read⟩ := List.mem_flatMap.mp others
            obtain ⟨asked, answered⟩ := mem_handed refs ref its
            exact inv.inRun_reads answered room read
      cases capability with
      | none => exact handing [] (fun _ room member => nomatch member) done
      | some capability =>
        dsimp only at done
        rcases required : (state.capability capability).requirements state thread run with _ | reads
        · rw [required] at done
          cases done
        · rw [required] at done
          exact handing reads (fun inv => inv.requirements_reads checked required) done
  | makes reads =>
    unfold State.tries at done
    dsimp only at done
    split at done
    · rename_i top
      split at done
      · rename_i of
        cases done
        exact .makes top of
      · cases done
        exact .same
    · cases done
      exact .same
  | parts ref reads =>
    unfold State.tries at done
    dsimp only at done
    split at done
    · cases done
    · rename_i whole its
      rcases checked : state.checkReading thread whole.run with _ | _
      · rw [checked] at done
        cases done
      · rw [checked] at done
        by_cases of : reads ⊆ whole.reads
        · have done : Except.ok _ = _ := (if_pos of).symm.trans done
          cases done
          exact .parts its of
        · have done : Except.ok _ = _ := (if_neg of).symm.trans done
          cases done
          exact .same
  | answers origin ref =>
    unfold State.tries at done
    dsimp only at done
    split at done
    · rename_i inner run depth there rest lent top
      split at done
      · rename_i same
        subst same
        rcases handed : state.inRun thread state.refs[ref]? run with _ | given
        · rw [handed] at done
          cases done
        · rw [handed] at done
          cases done
          exact .answers top fun inv => inv.inRun_reads handed
      · cases done
        exact .same
    · cases done
      exact .same
  | binds run requires required =>
    unfold State.tries at done
    obtain ⟨checked, done⟩ := checked_ok done
    cases done
    exact .binds checked _ _ requires
  | implements run =>
    unfold State.tries at done
    obtain ⟨checked, done⟩ := checked_ok done
    cases done
    exact .implements checked
  | hostFunction run =>
    unfold State.tries at done
    obtain ⟨checked, done⟩ := checked_ok done
    cases done
    exact .hostFunction checked

lemma Inv.stepped (inv : Inv state) (stepped : Stepped state thread after) : Inv after := by
  cases stepped with
  | same => exact inv
  | runs opened => exact inv.runs opened
  | scopes checked => exact inv.scopes checked
  | returns top => exact inv.returns top
  | leaves top => exact inv.leaves top
  | calls checked reaches => exact inv.calls checked (reaches inv)
  | answers top reaches => exact inv.answers top (reaches inv)
  | makes top of => exact inv.makes top of
  | parts its of => exact inv.parts its of
  | binds checked first second requires => exact inv.binds checked first second requires
  | implements checked => exact inv.implements checked
  | hostFunction checked => exact inv.hostFunction checked

lemma step_stepped (act : Act) : Stepped state thread (state.step thread act) := by
  unfold State.step
  cases done : state.tries thread act with
  | ok after => exact stepped done
  | error refused => exact .same

lemma Inv.run (inv : Inv state) (acts : List (ℕ × Act)) : Inv (state.run acts) := by
  induction acts generalizing state with
  | nil => exact inv
  | cons act rest ih => exact ih (inv.stepped (step_stepped act.2))

lemma inv_new : Inv .new := by
  constructor
  · intro thread
    constructor
    · trivial
    · exact fun _ => trivial
    · exact fun _ => rfl
    · intro run inside
      cases inside
    · intro identity
      constructor
      · intro member
        cases member
      · exact fun some => absurd rfl some
  · intro run live
    cases live
  · exact List.nodup_nil
  · intro run room member
    cases member
  · intro ref member
    cases member
  · intro capability member
    cases member
  · intro room member
    cases member

def Beneath (run : ℕ) (base : List Frame) : List Frame → Prop
  | [] => True
  | .within _ other _ _ :: rest => (other = run → rest = base) ∧ Beneath run base rest
  | .call .. :: rest => Beneath run base rest

lemma Beneath.stepped {on run : ℕ} {base : List Frame} (stepped : Stepped state thread after)
    (made : run < state.next) (beneath : Beneath run base (state.frames on)) :
    run < after.next ∧ Beneath run base (after.frames on) := by
  have changes : ∀ stack : List Frame, (on = thread → Beneath run base stack) →
      Beneath run base (Function.update state.frames thread stack on) := by
    intro stack here
    by_cases same : on = thread
    · rw [same, Function.update_self]
      exact here same
    · rw [Function.update_of_ne same]
      exact beneath
  cases stepped with
  | same => exact ⟨made, beneath⟩
  | runs opened =>
    refine ⟨made.trans (Nat.lt_succ_self _), changes _ fun same => ?_⟩
    exact ⟨fun its => absurd its made.ne', same ▸ beneath⟩
  | scopes checked =>
    refine ⟨made.trans (Nat.lt_succ_self _), changes _ fun same => ?_⟩
    exact ⟨fun its => absurd its made.ne', same ▸ beneath⟩
  | returns top =>
    refine ⟨made, changes _ fun same => ?_⟩
    rw [same, top] at beneath
    exact beneath
  | @leaves identity ended outer scope rest top =>
    obtain ⟨next, frames, -, -⟩ := @leave_rest state thread identity ended scope outer
    refine ⟨next.symm ▸ made, ?_⟩
    unfold State.onStack
    dsimp only
    rw [frames]
    refine changes _ fun same => ?_
    rw [same, top] at beneath
    exact beneath.2
  | calls checked reaches =>
    refine ⟨made, changes _ fun same => ?_⟩
    exact (same ▸ beneath : Beneath run base (state.frames thread))
  | answers top reaches =>
    refine ⟨made, changes _ fun same => ?_⟩
    rw [same, top] at beneath
    exact beneath
  | makes top of => exact ⟨made, beneath⟩
  | parts its of => exact ⟨made, beneath⟩
  | binds checked first second requires => exact ⟨made, beneath⟩
  | implements checked => exact ⟨made, beneath⟩
  | hostFunction checked => exact ⟨made, beneath⟩

lemma Beneath.run {on run : ℕ} {base : List Frame} (made : run < state.next)
    (beneath : Beneath run base (state.frames on)) (acts : List (ℕ × Act)) :
    Beneath run base ((state.run acts).frames on) := by
  induction acts generalizing state with
  | nil => exact beneath
  | cons act rest ih =>
    obtain ⟨made', beneath'⟩ := beneath.stepped (step_stepped act.2) made
    exact ih made' beneath'

end

/-- The runs of a state are one stack a thread, in step with the scopes of the libraries. -/
structure InStep (state : State) : Prop where
  /-- The scopes of a runtime open on a thread are those its runs open there stand on. -/
  scopes : ∀ thread identity, (state.arenas identity thread).scopes.map Prod.fst =
    scopesOf identity (state.frames thread)
  /-- The scope a run is closed with as it ends is the innermost. -/
  closes : ∀ thread identity run scope outer rest,
    state.frames thread = .within identity run scope outer :: rest →
      (state.scopeClose thread identity scope).2 = true
  /-- A value is handed over while the run it was made in is open, and to a run of its runtime that
      is the innermost. -/
  handed : ∀ thread ref run answered, state.inRun thread ref run = .ok answered →
    ref = some answered ∧
      answered.run ∈ opensOf (state.runs run).identity (state.frames thread) ∧
      (opensOf (state.runs run).identity (state.frames thread)).head? = some run
  /-- A capability is handed over while it and everything it stands on is of an open run. -/
  stood : ∀ thread capability run reads,
    Capability.requirements state thread capability run = .ok reads →
      capability.OpenIn (opensOf (state.runs run).identity (state.frames thread))
  /-- A callback is lent the innermost run of its runtime. -/
  lent : ∀ thread origin inner, state.host thread origin = some inner →
    (opensOf (state.runs origin).identity (state.frames thread)).head? = some inner
  /-- What is released was held by a run that is open nowhere any longer. -/
  released : ∀ room ∈ state.released, ∀ thread, room.run ∉ openIn (state.frames thread)
  /-- No call going on reads what is released. -/
  read : ∀ thread run depth reads, Frame.call run depth reads ∈ state.frames thread →
    ∀ room ∈ reads, room ∉ state.released

/-- A thread has the runs open it had, and each is as it was. -/
structure AsBefore (before after : State) (thread : ℕ) : Prop where
  frames : after.frames thread = before.frames thread
  roots : ∀ identity, (identity, thread) ∈ after.roots ↔ (identity, thread) ∈ before.roots
  runs : ∀ run ∈ openIn (before.frames thread), Stays before after run

section

variable {state : State}

lemma Placed.reads {thread run depth : ℕ} {reads : List Room} {stack : List Frame}
    (placed : Placed state thread stack) (there : Frame.call run depth reads ∈ stack) :
    ∀ room ∈ reads, Reaches state thread run room := by
  induction stack with
  | nil => cases there
  | cons frame rest ih =>
    cases frame with
    | within identity other scope outer =>
      obtain ⟨-, -, -, -, -, -, below⟩ := placed
      exact ih below ((List.mem_cons.mp there).resolve_left nofun)
    | call other depth' reads' =>
      rcases List.mem_cons.mp there with same | further
      · cases same
        exact placed.2.2.1
      · exact ih placed.2.2.2 further

lemma Inv.inStep (inv : Inv state) : InStep state := by
  constructor
  · exact fun thread => (inv.stands thread).scopes
  · intro thread identity run scope outer rest top
    have scopes := (inv.stands thread).scopes identity
    rw [top] at scopes
    unfold scopesOf at scopes
    rw [if_pos rfl] at scopes
    exact (scopeClose_innermost scopes).1
  · intro thread ref run answered handed
    obtain ⟨its, live, on, same, making⟩ := inRun_ok handed
    exact ⟨its, same ▸ inv.opened live on, inv.innermost making⟩
  · intro thread capability run reads answered
    exact (requirements_ok inv answered).1
  · exact fun thread origin inner => inv.host
  · intro room member thread inside
    have live := ((inv.stands thread).placed.opened inside).2.1
    rw [(inv.released room member).1] at live
    cases live
  · intro thread run depth reads there room member gone
    have reaches := (inv.stands thread).placed.reads there room member
    have live := reaches.1
    rw [(inv.released room gone).1] at live
    cases live

lemma Lasts.refl (run : ℕ) : Lasts state state run := ⟨rfl, rfl, rfl, List.Subset.refl _⟩

lemma Lasts.trans {before after : State} {run : ℕ} (first : Lasts before state run)
    (second : Lasts state after run) : Lasts before after run :=
  ⟨second.identity.trans first.identity, second.thread.trans first.thread,
    second.live.trans first.live, List.Subset.trans first.held second.held⟩

lemma enter_lasts (thread identity : ℕ) (outer : Option ℕ) {run : ℕ} (made : run < state.next) :
    Lasts state (state.enter thread identity outer) run := by
  constructor
  all_goals rw [enter_runs, if_neg made.ne]
  exact List.Subset.refl _

lemma Stepped.lasts {after : State} {thread run : ℕ} (stepped : Stepped state thread after)
    (inv : Inv state) (made : run < state.next) (live : (after.runs run).live = true) :
    Lasts state after run := by
  cases stepped with
  | same => exact .refl run
  | @runs identity opened =>
    have its := @enter_lasts { state with roots := state.roots ++ [(identity, thread)] } thread
      identity none run made
    exact ⟨its.identity, its.thread, its.live, its.held⟩
  | @scopes inner checked =>
    have linked : Lasts state (state.onRun inner fun it => { it with child := some state.next })
        run := onRun_lasts (fun it : Run => { it with child := some state.next })
      ⟨rfl, rfl, rfl, List.Subset.refl _⟩ run
    exact linked.trans (enter_lasts thread _ _ made)
  | returns top => exact recount_lasts _ _ run
  | @leaves identity ended outer scope rest top =>
    have apart := inv.outer_ne top
    have its : (state.leave thread identity ended scope outer).runs run = _ :=
      leave_runs apart run
    have other : run ≠ ended := by
      intro same
      rw [if_pos same] at its
      exact Bool.false_ne_true ((congrArg Run.live its).symm.trans live)
    rw [if_neg other] at its
    have linked : ∀ it : Run, (state.leave thread identity ended scope outer).runs run = it →
        it.identity = (state.runs run).identity → it.thread = (state.runs run).thread →
        it.live = (state.runs run).live → it.held = (state.runs run).held →
        Lasts state ((state.leave thread identity ended scope outer).onStack thread rest) run := by
      rintro it rfl identity thread live held
      exact ⟨identity, thread, live, fun room member => (congrArg (room ∈ ·) held).mpr member⟩
    refine linked _ its ?_ ?_ ?_ ?_
    all_goals split
    all_goals rfl
  | calls checked reaches => exact recount_lasts _ _ run
  | answers top reaches => exact ⟨rfl, rfl, rfl, List.Subset.refl _⟩
  | makes top of => exact ⟨rfl, rfl, rfl, List.Subset.refl _⟩
  | parts its of => exact ⟨rfl, rfl, rfl, List.Subset.refl _⟩
  | @binds inner checked first second requires =>
    have both : Lasts state ((state.room inner first).1.room inner second).1 run :=
      (room_lasts inner first run).trans (room_lasts inner second run)
    exact ⟨both.identity, both.thread, both.live, both.held⟩
  | @implements inner checked =>
    have its : Lasts state (state.room inner 3).1 run := room_lasts inner 3 run
    exact ⟨its.identity, its.thread, its.live, its.held⟩
  | @hostFunction inner checked =>
    have its : Lasts state (state.room inner 2).1 run := room_lasts inner 2 run
    exact ⟨its.identity, its.thread, its.live, its.held⟩

lemma Stepped.next {after : State} {thread : ℕ} (stepped : Stepped state thread after) :
    state.next ≤ after.next := by
  cases stepped with
  | runs opened => exact Nat.le_succ _
  | scopes checked => exact Nat.le_succ _
  | @leaves identity ended outer scope rest top =>
    exact (@leave_rest state thread identity ended scope outer).1.ge
  | _ => exact le_rfl

lemma run_lasts (inv : Inv state) (acts : List (ℕ × Act)) {run : ℕ} (made : run < state.next)
    (live : ((state.run acts).runs run).live = true) : Lasts state (state.run acts) run := by
  induction acts generalizing state with
  | nil => exact .refl run
  | cons act rest ih =>
    have stepped : Stepped state act.1 (state.step act.1 act.2) := step_stepped act.2
    have further := ih (inv.stepped stepped) (made.trans_le stepped.next) live
    exact (stepped.lasts inv made (further.live.symm.trans live)).trans further

lemma Linked.unique {after : State} {inside : Option ℕ} {runs : List ℕ}
    (linked : Linked state inside runs) (linked' : Linked after inside runs) :
    ∀ run ∈ runs, (after.runs run).child = (state.runs run).child := by
  induction runs generalizing inside with
  | nil => exact fun run member => nomatch member
  | cons first rest ih =>
    intro run member
    rcases List.mem_cons.mp member with rfl | further
    · exact linked'.1.trans linked.1.symm
    · exact ih linked.2 linked'.2 run further

lemma asBefore_of_frames {after : State} {thread : ℕ} (inv : Inv state) (inv' : Inv after)
    (frames : after.frames thread = state.frames thread)
    (lasts : ∀ run ∈ openIn (state.frames thread), Lasts state after run) :
    AsBefore state after thread := by
  have stands := inv.stands thread
  have stands' := inv'.stands thread
  rw [frames] at stands'
  constructor
  · exact frames
  · intro identity
    rw [stands.roots, stands'.roots]
  · intro run inside
    have opened := (opensOf_iff stands.placed).mpr ⟨inside, rfl⟩
    exact ⟨lasts run inside, (stands.linked _).unique (stands'.linked _) run opened,
      (stands'.counted run inside).trans (stands.counted run inside).symm⟩

lemma beneath_of_not_open {run : ℕ} {stack base : List Frame} (outside : run ∉ openIn stack) :
    Beneath run base stack := by
  induction stack with
  | nil => trivial
  | cons frame rest ih =>
    cases frame with
    | within identity other scope outer =>
      refine ⟨fun same => absurd ?_ outside,
        ih fun inside => outside (List.mem_cons_of_mem _ inside)⟩
      rw [← same]
      simp [openIn]
    | call other depth reads => exact ih outside

lemma step_exits {thread identity run : ℕ} {scope : BitVec 64} {outer : Option ℕ}
    {rest : List Frame} (top : state.frames thread = .within identity run scope outer :: rest) :
    state.step thread .exits =
      (state.leave thread identity run scope outer).onStack thread rest := by
  unfold State.step State.tries
  dsimp only
  rw [top]

lemma Inv.asBefore (inv : Inv state) {thread identity identity' : ℕ} {act : Act}
    {scope scope' : BitVec 64} {outer outer' : Option ℕ} {rest : List Frame}
    (opens : (state.step thread act).frames thread =
      .within identity state.next scope outer :: state.frames thread) (inside : List (ℕ × Act))
    (top : ((state.step thread act).run inside).frames thread =
      .within identity' state.next scope' outer' :: rest) :
    AsBefore state (((state.step thread act).run inside).step thread .exits) thread := by
  have inv₁ : Inv (state.step thread act) := inv.stepped (step_stepped act)
  have inv₂ := inv₁.run inside
  have inv₃ : Inv (((state.step thread act).run inside).step thread .exits) :=
    inv₂.stepped (step_stepped .exits)
  have made : state.next < (state.step thread act).next := by
    have placed := (inv₁.stands thread).placed
    rw [opens] at placed
    exact placed.2.2.2.1
  have outside : state.next ∉ openIn (state.frames thread) := fun member =>
    lt_irrefl _ ((inv.stands thread).placed.opened member).2.2
  have beneath : Beneath state.next (state.frames thread)
      ((state.step thread act).frames thread) := by
    rw [opens]
    exact ⟨fun _ => rfl, beneath_of_not_open outside⟩
  have kept := beneath.run made inside
  rw [top] at kept
  have frames : (((state.step thread act).run inside).step thread .exits).frames thread =
      state.frames thread := by
    rw [step_exits top, ← kept.1 rfl]
    exact Function.update_self _ _ _
  refine asBefore_of_frames inv inv₃ frames fun run member => ?_
  have all : State.run state ((thread, act) :: (inside ++ [(thread, .exits)])) =
      ((state.step thread act).run inside).step thread .exits := by
    unfold State.run
    rw [List.foldl_cons, List.foldl_append]
    rfl
  rw [← all] at inv₃ frames ⊢
  refine run_lasts inv _ ((inv.stands thread).placed.opened member).2.2 ?_
  exact ((inv₃.stands thread).placed.opened (frames.symm ▸ member)).2.1

end

/-- The runs of any number of libraries on any number of threads are one stack a thread in step with
    the libraries' scopes, whatever is done in whatever order, and a run that has ended leaves its
    thread as it was before the run was opened. -/
theorem runs_in_step (acts : List (ℕ × Act)) :
    InStep (State.new.run acts) ∧
      ∀ (thread : ℕ) (act : Act) (inside : List (ℕ × Act)) (opened ended : ℕ × BitVec 64 × Option ℕ)
        (rest : List Frame),
        ((State.new.run acts).step thread act).frames thread =
          .within opened.1 (State.new.run acts).next opened.2.1 opened.2.2 ::
            (State.new.run acts).frames thread →
        (((State.new.run acts).step thread act).run inside).frames thread =
          .within ended.1 (State.new.run acts).next ended.2.1 ended.2.2 :: rest →
        AsBefore (State.new.run acts)
          ((((State.new.run acts).step thread act).run inside).step thread .exits) thread := by
  have inv := inv_new.run acts
  constructor
  · exact inv.inStep
  · intro thread act inside opened ended rest opens top
    exact inv.asBefore opens inside top

/-- A run inside a root run, with another begun and ended in it, leaves all as it was. -/
theorem runs_in_step_scoped :
    AsBefore (State.new.run [(1, .runs 7)])
      ((((State.new.run [(1, .runs 7)]).step 1 (.scopes 0)).run
        [(1, .scopes 1), (1, .exits)]).step 1 .exits) 1 :=
  (runs_in_step [(1, .runs 7)]).2 1 (.scopes 0) [(1, .scopes 1), (1, .exits)] (7, 1, some 0)
    (7, 1, some 0) [.within 7 0 0 none] rfl rfl

end SoutherNative.Runs
