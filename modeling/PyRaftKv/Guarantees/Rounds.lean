/-
# Replication rounds that end too early, or never again

A round of `_replicate_followers_concurrently` shares its slots with the rounds before it.

* A task that raised keeps its slot: `future.result()` raises before the slot is cleared, in both
  loops.  Every later round finds it in the first loop and raises again, before it has submitted
  anything to that follower (`failed_task_blocks`).
* A result collected from an earlier round counts for the quorum of this one, while the follower's
  new task is pending (`round_ends_on_stale_result`).  Where such a result is replaced before it
  counts, and no task of the round raises, a round ends early on a real quorum only
  (`round_ends_on_quorum`).
-/
import PyRaftKv.Raft.Rounds

namespace PyRaftKv

namespace RoundCall

variable {r r' : RoundCall} {f : NodeId} {t : Nat} {e : RaftError}

/-! ## 1. The loop over the tasks that are done -/

/-- What the loop over `active.items()` leaves alone. -/
theorem collect_frame (done : List Nat) : ∀ (fs : List NodeId) (r : RoundCall),
    (r.collect done fs).active = r.active ∧
      (r.collect done fs).pool.finished = r.pool.finished ∧
      (r.collect done fs).pool.nextTask = r.pool.nextTask ∧
      (r.collect done fs).followers = r.followers ∧
      (r.collect done fs).followerQuorum = r.followerQuorum ∧
      (r.collect done fs).requiredFollower = r.requiredFollower
  | [], r => ⟨rfl, rfl, rfl, rfl, rfl, rfl⟩
  | f :: fs, r => by
    unfold collect
    split
    · exact collect_frame done fs r
    · split
      · exact collect_frame done fs r
      · split
        · exact collect_frame done fs r
        · exact ⟨rfl, rfl, rfl, rfl, rfl, rfl⟩
        · exact collect_frame done fs _

/-- The slot of a follower whose task is not done is left alone. -/
theorem collect_futures (done : List Nat) (hf : ∀ t, r.active f = some t → t ∉ done) :
    ∀ (fs : List NodeId), (r.collect done fs).pool.futures f = r.pool.futures f := by
  intro fs
  induction fs generalizing r with
  | nil => rfl
  | cons g fs ih =>
    unfold collect
    split
    · exact ih hf
    · rename_i task hactive
      split
      · exact ih hf
      · rename_i hdone
        split
        · exact ih hf
        · rfl
        · rw [ih (by exact hf)]
          by_cases hfg : f = g
          · subst hfg
            exact absurd (not_not.mp hdone) (hf task hactive)
          · simp only
            split
            · exact Function.update_of_ne hfg _ _
            · rfl

/-- **A task that raises keeps its slot.** -/
theorem collect_raised (done : List Nat) {pending : List Nat}
    (hphase : ∀ f t e pending, r.phase ≠ .raised f t e pending) : ∀ (fs : List NodeId),
    (r.collect done fs).phase = .raised f t e pending →
      r.active f = some t ∧ t ∈ done ∧ r.pool.finished t = some (.error e) ∧
        (r.collect done fs).pool.futures f = r.pool.futures f := by
  intro fs
  induction fs generalizing r with
  | nil => exact fun h => absurd h (hphase f t e pending)
  | cons g fs ih =>
    intro h
    unfold collect at h ⊢
    split at h
    · rename_i hnone
      exact ih hphase h
    · rename_i task hactive
      split at h
      · rename_i hdone
        simp only [if_pos hdone]
        exact ih hphase h
      · rename_i hdone
        simp only [if_neg hdone]
        split at h
        · exact ih hphase h
        · rename_i e' hfin
          cases h
          exact ⟨hactive, not_not.mp hdone, hfin, rfl⟩
        · rename_i result hfin
          obtain ⟨ha, hd, hf, hfut⟩ := ih (by exact hphase) h
          refine ⟨ha, hd, hf, ?_⟩
          rw [hfut]
          simp only
          split
          · refine Function.update_of_ne ?_ _ _
            rintro rfl
            -- the task of `g` has not raised
            have : some t = some task := ha.symm.trans hactive
            cases this
            rw [hfin] at hf
            cases hf
          · rfl

/-- The tasks among `pending` that have finished. -/
def doneOf (r : RoundCall) (pending : List Nat) : List Nat :=
  pending.filter fun task => (r.pool.finished task).isSome

/-- **What an event does**, where it can happen. -/
inductive Stepped (r : RoundCall) : RoundEvent → RoundCall → Prop
  | finish (task : Nat) (result : TaskResult) : r.pool.finished task = none →
      Stepped r (.finish task result) { r with pool := { r.pool with
        finished := Function.update r.pool.finished task (some result) } }
  | submitted : r.phase = .submitting [] →
      Stepped r .submit { r with phase := .waiting (r.followers.filterMap r.active) }
  | submit (f : NodeId) (rest : List NodeId) : r.phase = .submitting (f :: rest) →
      Stepped r .submit (r.submitTurn f rest)
  | wake (pending : List Nat) : r.phase = .waiting pending → ¬ (r.doneOf pending).isEmpty →
      Stepped r .wake ((r.collect (r.doneOf pending) r.followers).endTurn
        (pending.filter (· ∉ r.doneOf pending)))
  | timeout (pending : List Nat) : r.phase = .waiting pending →
      Stepped r .timeout { r with phase := .returned pending .deadline }

theorem stepped_of_step {event : RoundEvent} (h : r.step event = some r') : Stepped r event r' := by
  cases event with
  | finish task result =>
    simp only [RoundCall.step] at h
    split at h
    · rename_i hfree
      cases h
      exact .finish task result hfree.2
    · cases h
  | submit =>
    simp only [RoundCall.step] at h
    split at h
    · rename_i hphase
      cases h
      exact .submitted hphase
    · rename_i f rest hphase
      cases h
      exact .submit f rest hphase
    · cases h
  | wake =>
    simp only [RoundCall.step] at h
    split at h
    · rename_i pending hphase
      split at h
      · cases h
      · rename_i hdone
        cases h
        exact .wake pending hphase hdone
    · cases h
  | timeout =>
    simp only [RoundCall.step] at h
    split at h
    · rename_i pending hphase
      cases h
      exact .timeout pending hphase
    · cases h

/-- A task that has finished keeps its result. -/
theorem finished_kept {task t : Nat} {result x : TaskResult} (hfree : r.pool.finished task = none)
    (h : r.pool.finished t = some x) :
    Function.update r.pool.finished task (some result) t = some x := by
  refine (Function.update_of_ne ?_ _ _).trans h
  rintro rfl
  rw [hfree] at h
  cases h

/-- The invariant of a run of events, from a lemma about one. -/
theorem runs_induction {P : RoundCall → Prop} {es : List RoundEvent}
    (hstep : ∀ {r r' : RoundCall} {event : RoundEvent}, P r → r.step event = some r' → P r')
    (hrun : r.runs es = some r') (h : P r) : P r' := by
  induction es generalizing r with
  | nil =>
    cases hrun
    exact h
  | cons event es ih =>
    obtain ⟨r₁, hr₁, hrest⟩ := Option.bind_eq_some_iff.mp hrun
    exact ih hrest (hstep h hr₁)

/-! ## 2. A task that raised -/

/-- The tasks of the call that are not collected are in their slots, and so is one that raised. -/
def SlotsHeld (r : RoundCall) : Prop :=
  match r.phase with
  | .submitting _ => ∀ f t, r.active f = some t → r.pool.futures f = some t
  | .waiting pending => ∀ f t, r.active f = some t → t ∈ pending → r.pool.futures f = some t
  | .raised f t e _ => r.pool.futures f = some t ∧ r.pool.finished t = some (.error e)
  | .returned _ _ => True

theorem SlotsHeld.submitNew (h : ∀ f t, r.active f = some t → r.pool.futures f = some t)
    (f : NodeId) (rest : List NodeId) : (r.submitNew f rest).SlotsHeld := by
  intro g t hg
  change Function.update r.active f (some r.pool.nextTask) g = some t at hg
  change Function.update r.pool.futures f (some r.pool.nextTask) g = some t
  by_cases hgf : g = f
  · subst hgf
    rw [Function.update_self] at hg ⊢
    exact hg
  · rw [Function.update_of_ne hgf] at hg ⊢
    exact h g t hg

theorem SlotsHeld.submitTurn (h : ∀ f t, r.active f = some t → r.pool.futures f = some t)
    (f : NodeId) (rest : List NodeId) : (r.submitTurn f rest).SlotsHeld := by
  unfold RoundCall.submitTurn
  split
  · exact .submitNew h f rest
  · rename_i task hslot
    split
    · intro g t hg
      change Function.update r.active f (some task) g = some t at hg
      by_cases hgf : g = f
      · subst hgf
        rw [Function.update_self] at hg
        exact hg ▸ hslot
      · rw [Function.update_of_ne hgf] at hg
        exact h g t hg
    · rename_i e hfin
      exact ⟨hslot, hfin⟩
    · exact .submitNew (by exact h) f rest

/-- What a turn of the waiting loop makes of the phase. -/
theorem endTurn_cases (r : RoundCall) (pending : List Nat) :
    (∃ f t e pending', r.phase = .raised f t e pending' ∧
        r.endTurn pending = { r with phase := .raised f t e pending }) ∨
      (∀ f t e pending', r.phase ≠ .raised f t e pending') ∧
        ((r.requiredFollower = none ∧ r.followerQuorum ≤ r.successes ∨
            r.requiredFollower.any (fun f => (r.results f).isSome)) ∧
            r.endTurn pending = { r with phase := .returned pending .early } ∨
          r.endTurn pending = { r with phase := .returned [] .exhausted } ∨
          r.endTurn pending = { r with phase := .waiting pending }) := by
  unfold endTurn
  split
  · rename_i f t e pending' hphase
    exact Or.inl ⟨f, t, e, pending', hphase, rfl⟩
  · rename_i hphase
    refine Or.inr ⟨fun f t e pending' h => hphase f t e pending' h, ?_⟩
    split
    · rename_i hbreak
      exact Or.inl ⟨hbreak, rfl⟩
    · split
      · exact Or.inr (Or.inl rfl)
      · exact Or.inr (Or.inr rfl)

/-- A turn of the waiting loop. -/
theorem SlotsHeld.wake {pending : List Nat} (hphase : r.phase = .waiting pending)
    (h : ∀ f t, r.active f = some t → t ∈ pending → r.pool.futures f = some t) :
    ((r.collect (r.doneOf pending) r.followers).endTurn
      (pending.filter (· ∉ r.doneOf pending))).SlotsHeld := by
  have hnot : ∀ f t e pending', r.phase ≠ .raised f t e pending' := by simp [hphase]
  obtain ⟨hactive, hfinished, -⟩ := collect_frame (r.doneOf pending) r.followers r
  rcases endTurn_cases (r.collect (r.doneOf pending) r.followers)
    (pending.filter (· ∉ r.doneOf pending)) with
    ⟨f, t, e, pending', hraised, heq⟩ | ⟨-, ⟨-, heq⟩ | heq | heq⟩
  · obtain ⟨ha, hd, hfin, hfut⟩ := collect_raised _ hnot r.followers hraised
    rw [heq]
    refine ⟨?_, by rw [← hfin]; exact congrFun hfinished t⟩
    rw [← h f t ha (List.mem_filter.mp hd).1]
    exact hfut
  · rw [heq]
    trivial
  · rw [heq]
    trivial
  · rw [heq]
    intro f t hf ht
    change (r.collect (r.doneOf pending) r.followers).active f = some t at hf
    rw [hactive] at hf
    have htd := List.mem_filter.mp ht
    rw [← h f t hf htd.1]
    refine collect_futures _ (fun t' ht' => ?_) r.followers
    rw [hf] at ht'
    cases ht'
    simpa using htd.2

theorem SlotsHeld.step {event : RoundEvent} (h : r.SlotsHeld) (hstep : r.step event = some r') :
    r'.SlotsHeld := by
  unfold SlotsHeld at h
  cases stepped_of_step hstep with
  | finish task result hfree =>
    unfold SlotsHeld
    simp only
    split
    · rename_i hphase
      rwa [hphase] at h
    · rename_i hphase
      rwa [hphase] at h
    · rename_i f t e pending hphase
      rw [hphase] at h
      exact ⟨h.1, finished_kept hfree h.2⟩
    · trivial
  | submitted hphase =>
    rw [hphase] at h
    exact fun f t hf _ => h f t hf
  | submit f rest hphase =>
    rw [hphase] at h
    exact .submitTurn h f rest
  | wake pending hphase _ =>
    rw [hphase] at h
    exact .wake hphase h
  | timeout pending _ => trivial

/-- **A round on a pool where the task of `f` has raised**: it has not come to `f` in the first
loop, or it has raised. -/
structure Stalls (r : RoundCall) (f : NodeId) (t : Nat) (e : RaftError) : Prop where
  slot : r.pool.futures f = some t
  finished : r.pool.finished t = some (.error e)
  inactive : r.active f = none
  phase : (∃ rest, r.phase = .submitting rest ∧ f ∈ rest) ∨
    ∃ g t' e' pending, r.phase = .raised g t' e' pending

theorem Stalls.submitNew (h : r.Stalls f t e) {g : NodeId} {rest : List NodeId} (hgf : f ≠ g)
    (hrest : f ∈ rest) : (r.submitNew g rest).Stalls f t e := by
  refine ⟨?_, h.finished, ?_, Or.inl ⟨rest, rfl, hrest⟩⟩
  · exact (Function.update_of_ne hgf _ _).trans h.slot
  · exact (Function.update_of_ne hgf _ _).trans h.inactive

/-- The turn of the first loop for `f` raises, the others go on. -/
theorem Stalls.submitTurn (h : r.Stalls f t e) {g : NodeId} {rest : List NodeId}
    (hf : f ∈ g :: rest) : (r.submitTurn g rest).Stalls f t e := by
  unfold RoundCall.submitTurn
  by_cases hfg : f = g
  · subst hfg
    rw [h.slot]
    simp only [h.finished]
    exact ⟨h.slot, h.finished, h.inactive, Or.inr ⟨_, _, _, _, rfl⟩⟩
  · have hrest : f ∈ rest := (List.mem_cons.mp hf).resolve_left hfg
    split
    · exact h.submitNew hfg hrest
    · rename_i task hslot
      split
      · exact ⟨h.slot, h.finished, (Function.update_of_ne hfg _ _).trans h.inactive,
          Or.inl ⟨rest, rfl, hrest⟩⟩
      · exact ⟨h.slot, h.finished, h.inactive, Or.inr ⟨_, _, _, _, rfl⟩⟩
      · exact Stalls.submitNew (by exact ⟨h.slot, h.finished, h.inactive, h.phase⟩) hfg hrest

theorem Stalls.not_waiting (h : r.Stalls f t e) (pending : List Nat) :
    r.phase ≠ .waiting pending := by
  rcases h.phase with ⟨rest, hphase, -⟩ | ⟨g, t', e', pending', hphase⟩
  · simp [hphase]
  · simp [hphase]

theorem Stalls.comes_to (h : r.Stalls f t e) {rest : List NodeId}
    (hphase : r.phase = .submitting rest) : f ∈ rest := by
  rcases h.phase with ⟨rest', hphase', hf⟩ | ⟨g, t', e', pending', hphase'⟩
  · rw [hphase] at hphase'
    cases hphase'
    exact hf
  · rw [hphase] at hphase'
    cases hphase'

theorem Stalls.step {event : RoundEvent} (h : r.Stalls f t e) (hstep : r.step event = some r') :
    r'.Stalls f t e := by
  cases stepped_of_step hstep with
  | finish task result hfree => exact ⟨h.slot, finished_kept hfree h.finished, h.inactive, h.phase⟩
  | submitted hphase => exact absurd (h.comes_to hphase) List.not_mem_nil
  | submit g rest hphase => exact h.submitTurn (h.comes_to hphase)
  | wake pending hphase _ => exact absurd hphase (h.not_waiting pending)
  | timeout pending hphase => exact absurd hphase (h.not_waiting pending)

/-- One more round on the slots, with `f` among its followers. -/
def NextRound (f : NodeId) (p p' : Pool) : Prop :=
  ∃ followers members required es r, f ∈ followers ∧
    (start p followers members required).runs es = some r ∧ r.pool = p'

theorem start_stalls {p : Pool} (hslot : p.futures f = some t)
    (hfinished : p.finished t = some (.error e)) {followers : List NodeId} (hf : f ∈ followers)
    (members : Nat) (required : Option NodeId) :
    (start p followers members required).Stalls f t e := by
  refine ⟨hslot, hfinished, rfl, Or.inl ⟨followers, ?_, hf⟩⟩
  cases followers with
  | nil => cases hf
  | cons g followers => rfl

/-- **Not blocked** once a task of `f` was found finished with an exception: the slot is
free of it, and the next round submits a new task to every follower without one in flight. -/
structure Unblocked (r : RoundCall) (f : NodeId) (t : Nat) : Prop where
  cleared : r.pool.futures f ≠ some t
  resubmits : ∀ members r',
    (start r.pool r.followers members r.requiredFollower).runs
        (List.replicate r.followers.length .submit) = some r' →
      ∀ g ∈ r.followers, (∀ t', r.pool.futures g = some t' → (r.pool.finished t').isSome) →
        ∃ t', r'.active g = some t' ∧ r.pool.nextTask ≤ t'

/-- **A task that raised blocks its follower for good.**  Its slot is not cleared by the round that
finds it; and every later round, however its tasks end, raises in its first loop without having
submitted anything to that follower, and leaves the slot as it was. -/
theorem failed_task_blocks {p : Pool} {followers : List NodeId} {members : Nat}
    {required : Option NodeId} {es : List RoundEvent} {pending : List Nat}
    (hrun : (start p followers members required).runs es = some r)
    (hraised : r.phase = .raised f t e pending) :
    ¬ r.Unblocked f t ∧
      ∀ p', Relation.ReflTransGen (NextRound f) r.pool p' →
        (p'.futures f = some t ∧ p'.finished t = some (.error e)) ∧
        ∀ followers' members' required' es' r', f ∈ followers' →
          (start p' followers' members' required').runs es' = some r' →
            r'.active f = none ∧ ((∃ rest, r'.phase = .submitting rest) ∨
              ∃ g t' e' pending', r'.phase = .raised g t' e' pending') := by
  have hstart : (start p followers members required).SlotsHeld := by
    unfold start SlotsHeld
    cases followers with
    | nil => trivial
    | cons g followers => exact fun f t h => by cases h
  have hheld := runs_induction SlotsHeld.step hrun hstart
  unfold SlotsHeld at hheld
  rw [hraised] at hheld
  obtain ⟨hslot, hfinished⟩ := hheld
  refine ⟨fun h => h.cleared hslot, fun p' hlater => ?_⟩
  have hstuck : p'.futures f = some t ∧ p'.finished t = some (.error e) := by
    induction hlater with
    | refl => exact ⟨hslot, hfinished⟩
    | tail _ hnext ih =>
      obtain ⟨fs, m, rq, es', r', hf, hrun', rfl⟩ := hnext
      have := runs_induction Stalls.step hrun' (start_stalls ih.1 ih.2 hf m rq)
      exact ⟨this.slot, this.finished⟩
  refine ⟨hstuck, fun fs m rq es' r' hf hrun' => ?_⟩
  have := runs_induction Stalls.step hrun' (start_stalls hstuck.1 hstuck.2 hf m rq)
  exact ⟨this.inactive, this.phase.imp_left fun ⟨rest, h, _⟩ => ⟨rest, h⟩⟩

/-- The task of "b" has raised while persisting a higher term. -/
def failedPool : Pool where
  futures := fun f => if f = "b" then some 0 else none
  finished := fun t =>
    if t = 0 then some (.error (.raftPersistenceError "Unable to persist Raft state")) else none
  nextTask := 1

theorem failed_task_blocks_failedPool : ∃ r,
    (start failedPool ["b", "c"] 3 none).runs [.submit] = some r ∧
      ∀ p', Relation.ReflTransGen (NextRound "b") r.pool p' → p'.futures "b" = some 0 := by
  obtain ⟨r, hrun, hraised⟩ : ∃ r, (start failedPool ["b", "c"] 3 none).runs [.submit] = some r ∧
      r.phase = .raised "b" 0 (.raftPersistenceError "Unable to persist Raft state") [] :=
    ⟨_, rfl, rfl⟩
  exact ⟨r, hrun, fun p' h => ((failed_task_blocks hrun hraised).2 p' h).1.1⟩

/-- **The round that finds the failed task leaves it in its slot.** -/
theorem failed_task_kept : ∃ r e,
    (start failedPool ["b", "c"] 3 none).runs [.submit] = some r ∧
      r.phase = .raised "b" 0 e [] ∧ ¬ r.Unblocked "b" 0 :=
  ⟨_, _, rfl, rfl, fun h => h.cleared rfl⟩

/-! ## 3. Leaving the waiting loop -/

/-- A task of this round for follower `f` has finished with `True`. -/
def confirms (r : RoundCall) (f : NodeId) : Bool :=
  match (r.active f).bind r.pool.finished with
  | some (.ok true) => true
  | _ => false

theorem confirms_iff :
    r.confirms f = true ↔ (r.active f).bind r.pool.finished = some (.ok true) := by
  unfold confirms
  split
  · rename_i h
    simp [h]
  · rename_i h
    simp only [Bool.false_eq_true, false_iff]
    exact h

/-- **A round ends early only on a real quorum**: if it leaves the waiting loop before the deadline
while a task is pending, as many followers as the quorum needs have confirmed in this round. -/
def EndsOnQuorum (r : RoundCall) : Prop :=
  r.requiredFollower = none → ∀ pending, pending ≠ [] →
    (r.phase = .returned pending .early ∨ ∃ f t e, r.phase = .raised f t e pending) →
      r.followerQuorum ≤ r.followers.countP r.confirms

/-- **The events that do not lead a round astray.**  With two followers or more, whoever has `True`
for its result has its task of this round finished when the waiting loop collects, so that a result
of an earlier round does not count any more; and no task that this loop collects has raised, unless
nothing is pending after it. -/
def Clean (r : RoundCall) : RoundEvent → Prop
  | .wake => ∀ pending, r.phase = .waiting pending →
      (r.followers.length ≤ 1 ∨ ∀ f, r.results f = some true →
        ((r.active f).bind r.pool.finished).isSome = true) ∧
      ((∀ t ∈ pending, ∀ e, r.pool.finished t ≠ some (.error e)) ∨
        ∀ t ∈ pending, (r.pool.finished t).isSome)
  | _ => True

/-- Every event of a run is clean where it happens. -/
def CleanRun (r : RoundCall) : List RoundEvent → Prop
  | [] => True
  | event :: es => r.Clean event ∧ ∀ r', r.step event = some r' → r'.CleanRun es

/-- With two followers or more, only results of this round count. -/
def Counts (r : RoundCall) : Prop :=
  r.followers.length ≤ 1 ∨ ∀ f, r.results f = some true → r.confirms f = true

/-- What a clean run keeps. -/
structure Honest (r : RoundCall) : Prop where
  rest : ∀ rest, r.phase = .submitting rest → rest ⊆ r.followers
  /-- Whoever has a result has a task of this round. -/
  listed : ∀ f, r.results f = some true → f ∈ r.followers ∧ (r.active f).isSome
  waiting : ∀ pending, r.phase = .waiting pending → pending.length ≤ r.followers.length ∧
    (r.followers.length ≤ 1 ∨ ∀ f t, r.results f = some true → r.active f = some t →
      t ∈ pending ∨ r.confirms f = true)
  returned : ∀ pending, r.phase = .returned pending .early →
    pending.length < r.followers.length ∧
      (r.requiredFollower = none → r.followerQuorum ≤ r.successes) ∧ r.Counts
  raised : ∀ f t e pending, r.phase = .raised f t e pending → pending = []

theorem Honest.endsOnQuorum (h : r.Honest) : r.EndsOnQuorum := by
  rintro hrequired pending hne (hphase | ⟨f, t, e, hphase⟩)
  · obtain ⟨hlen, hquorum, hcounts⟩ := h.returned pending hphase
    have hpos := List.length_pos_iff.mpr hne
    refine Nat.le_trans (hquorum hrequired) (List.countP_mono_left fun f _ hf => ?_)
    exact hcounts.resolve_left (by omega) f (of_decide_eq_true hf)
  · exact absurd (h.raised f t e pending hphase) hne

/-- The loop over `active.items()` puts down results of this round only. -/
theorem collect_cases (done : List Nat) (f : NodeId) : ∀ (fs : List NodeId) (r : RoundCall),
    (r.collect done fs).results f = r.results f ∨
      ∃ t result, f ∈ fs ∧ r.active f = some t ∧ r.pool.finished t = some (.ok result) ∧
        (r.collect done fs).results f = some result
  | [], r => Or.inl rfl
  | g :: fs, r => by
    have htail : ∀ r' : RoundCall, r'.active = r.active → r'.pool.finished = r.pool.finished →
        (r'.collect done fs).results f = r'.results f ∨
          ∃ t result, f ∈ g :: fs ∧ r.active f = some t ∧
            r.pool.finished t = some (.ok result) ∧
            (r'.collect done fs).results f = some result := by
      intro r' hactive hfinished
      rcases collect_cases done f fs r' with hsame | ⟨t, result, hmem, ht, hfin, hresult⟩
      · exact Or.inl hsame
      · exact Or.inr ⟨t, result, List.mem_cons_of_mem _ hmem, hactive ▸ ht, hfinished ▸ hfin,
          hresult⟩
    unfold collect
    split
    · exact htail r rfl rfl
    · rename_i task hactive
      split
      · exact htail r rfl rfl
      · split
        · exact htail r rfl rfl
        · exact Or.inl rfl
        · rename_i result hfin
          rcases htail { r with
            results := Function.update r.results g (some result)
            pool := { r.pool with
              futures := if r.pool.futures g = some task then
                Function.update r.pool.futures g none else r.pool.futures } } rfl rfl with
            hsame | hnew
          · by_cases hfg : f = g
            · subst hfg
              exact Or.inr ⟨task, result, List.mem_cons_self, hactive, hfin,
                hsame.trans (Function.update_self _ _ _)⟩
            · exact Or.inl (hsame.trans (Function.update_of_ne hfg _ _))
          · exact Or.inr hnew

/-- Where it does not raise, it puts down the result of every task that is done. -/
theorem collect_reaches (done : List Nat) {f : NodeId} {t : Nat} {x : TaskResult}
    (hdone : t ∈ done) : ∀ (fs : List NodeId) (r : RoundCall),
    (∀ g u e pending, (r.collect done fs).phase ≠ .raised g u e pending) → f ∈ fs →
      r.active f = some t → r.pool.finished t = some x →
      ∃ result, x = .ok result ∧ (r.collect done fs).results f = some result
  | [], r, _, hmem, _, _ => by cases hmem
  | g :: fs, r, hphase, hmem, hactive, hfin => by
    unfold collect at hphase ⊢
    by_cases hgf : g = f
    · subst hgf
      simp only [hactive, not_not_intro hdone, if_false, hfin] at hphase ⊢
      rcases x with e | result
      · exact absurd rfl (hphase g t e [])
      · refine ⟨result, rfl, ?_⟩
        -- a second visit puts down the same
        rcases collect_cases done g fs { r with
            results := Function.update r.results g (some result)
            pool := { r.pool with
              futures := if r.pool.futures g = some t then
                Function.update r.pool.futures g none else r.pool.futures } } with
          hsame | ⟨u, result', -, hactive', hfin', hresult⟩
        · exact hsame.trans (Function.update_self _ _ _)
        · cases hactive.symm.trans hactive'
          cases hfin.symm.trans hfin'
          exact hresult
    · have hrest : f ∈ fs := (List.mem_cons.mp hmem).resolve_left fun h => hgf h.symm
      split at hphase
      · exact collect_reaches done hdone fs r hphase hrest hactive hfin
      · split at hphase
        · rename_i hnot
          simp only [if_pos hnot]
          exact collect_reaches done hdone fs r hphase hrest hactive hfin
        · rename_i task _ hin
          simp only [if_neg hin]
          split at hphase
          · exact collect_reaches done hdone fs r hphase hrest hactive hfin
          · rename_i e _
            exact absurd rfl (hphase g task e [])
          · exact collect_reaches done hdone fs _ hphase hrest hactive hfin

/-- The phase is an exception's only if a task that is done has raised. -/
theorem collect_phase (done : List Nat)
    (hok : ∀ t ∈ done, ∀ e, r.pool.finished t ≠ some (.error e)) :
    ∀ (fs : List NodeId), (r.collect done fs).phase = r.phase := by
  intro fs
  induction fs generalizing r with
  | nil => rfl
  | cons g fs ih =>
    unfold collect
    split
    · exact ih hok
    · rename_i task hactive
      split
      · exact ih hok
      · rename_i hdone
        split
        · exact ih hok
        · rename_i e hfin
          exact absurd hfin (hok task (not_not.mp hdone) e)
        · exact ih hok

theorem filter_pending_lt {pending : List Nat} (p : Nat → Bool) (h : ¬ (pending.filter p).isEmpty) :
    (pending.filter (· ∉ pending.filter p)).length < pending.length := by
  obtain ⟨t, ht⟩ := List.exists_mem_of_ne_nil (pending.filter p) fun hnil => h (by rw [hnil]; rfl)
  refine List.length_filter_lt_length_iff_exists.mpr ⟨t, (List.mem_filter.mp ht).1, ?_⟩
  simpa using ht

theorem Honest.submitNew (h : r.Honest) {f : NodeId} {rest : List NodeId}
    (hrest : rest ⊆ r.followers) : (r.submitNew f rest).Honest := by
  refine ⟨?_, fun g hg => ⟨(h.listed g hg).1, ?_⟩, ?_, ?_, ?_⟩
  · rintro _ ⟨⟩
    exact hrest
  · change (Function.update r.active f (some r.pool.nextTask) g).isSome
    by_cases hgf : g = f
    · subst hgf
      rw [Function.update_self]
      rfl
    · rw [Function.update_of_ne hgf]
      exact (h.listed g hg).2
  all_goals simp [RoundCall.submitNew]

/-- A turn of the first loop may put down a result of an earlier round. -/
theorem Honest.submitTurn (h : r.Honest) {f : NodeId} {rest : List NodeId}
    (hphase : r.phase = .submitting (f :: rest)) : (r.submitTurn f rest).Honest := by
  have hall := h.rest _ hphase
  have hrest : rest ⊆ r.followers := fun g hg => hall (List.mem_cons_of_mem _ hg)
  unfold RoundCall.submitTurn
  split
  · exact h.submitNew hrest
  · rename_i task hslot
    split
    · refine ⟨?_, fun g hg => ⟨(h.listed g hg).1, ?_⟩, by simp, by simp, by simp⟩
      · rintro _ ⟨⟩
        exact hrest
      · change (Function.update r.active f (some task) g).isSome
        by_cases hgf : g = f
        · subst hgf
          rw [Function.update_self]
          rfl
        · rw [Function.update_of_ne hgf]
          exact (h.listed g hg).2
    · refine ⟨by simp, h.listed, by simp, by simp, ?_⟩
      rintro _ _ _ _ ⟨⟩
      rfl
    · rename_i result hfin
      refine ⟨?_, fun g hg => ?_, ?_, ?_, ?_⟩
      · rintro _ ⟨⟩
        exact hrest
      · change Function.update r.results f (some result) g = some true at hg
        change g ∈ r.followers ∧ (Function.update r.active f (some r.pool.nextTask) g).isSome
        by_cases hgf : g = f
        · subst hgf
          rw [Function.update_self]
          exact ⟨hall List.mem_cons_self, rfl⟩
        · rw [Function.update_of_ne hgf] at hg ⊢
          exact h.listed g hg
      all_goals simp [RoundCall.submitNew]

/-- What was collected from an earlier round has been replaced. -/
theorem Honest.counts (h : r.Honest) {pending : List Nat} (hphase : r.phase = .waiting pending)
    (hclean : r.followers.length ≤ 1 ∨ ∀ f, r.results f = some true →
      ((r.active f).bind r.pool.finished).isSome = true)
    (hnot : ∀ g u e pending', (r.collect (r.doneOf pending) r.followers).phase ≠
      .raised g u e pending') : (r.collect (r.doneOf pending) r.followers).Counts := by
  obtain ⟨hactive, hfinished, -, hfollowers, -, -⟩ :=
    collect_frame (r.doneOf pending) r.followers r
  unfold Counts
  rw [hfollowers]
  rcases hclean with hone | hclean
  · exact Or.inl hone
  rcases (h.waiting pending hphase).2 with hone | hwaiting
  · exact Or.inl hone
  refine Or.inr fun f hf => ?_
  rw [confirms_iff, hactive, hfinished]
  rcases collect_cases (r.doneOf pending) f r.followers r with
    hsame | ⟨t, result, -, ht, hfin, hresult⟩
  · have hold : r.results f = some true := hsame.symm.trans hf
    obtain ⟨hmem, hsome⟩ := h.listed f hold
    obtain ⟨t, ht⟩ := Option.isSome_iff_exists.mp hsome
    rcases hwaiting f t hold ht with hpending | hconfirms
    · have hdone := hclean f hold
      rw [ht, Option.bind_some] at hdone
      obtain ⟨x, hx⟩ := Option.isSome_iff_exists.mp hdone
      obtain ⟨result, rfl, hresult⟩ := collect_reaches (r.doneOf pending)
        (List.mem_filter.mpr ⟨hpending, hdone⟩) r.followers r hnot hmem ht hx
      cases hresult.symm.trans hf
      rw [ht]
      exact hx
    · exact confirms_iff.mp hconfirms
  · cases hresult.symm.trans hf
    rw [ht]
    exact hfin

theorem Honest.wake (h : r.Honest) {pending : List Nat} (hphase : r.phase = .waiting pending)
    (hdone : ¬ (r.doneOf pending).isEmpty)
    (hclean : (r.followers.length ≤ 1 ∨ ∀ f, r.results f = some true →
        ((r.active f).bind r.pool.finished).isSome = true) ∧
      ((∀ t ∈ pending, ∀ e, r.pool.finished t ≠ some (.error e)) ∨
        ∀ t ∈ pending, (r.pool.finished t).isSome)) :
    ((r.collect (r.doneOf pending) r.followers).endTurn
      (pending.filter (· ∉ r.doneOf pending))).Honest := by
  have hlt : (pending.filter (· ∉ r.doneOf pending)).length < pending.length :=
    filter_pending_lt _ hdone
  have hle := (h.waiting pending hphase).1
  obtain ⟨hactive, -, -, hfollowers, hquorum, hrequired⟩ :=
    collect_frame (r.doneOf pending) r.followers r
  have hlisted : ∀ f, (r.collect (r.doneOf pending) r.followers).results f = some true →
      f ∈ (r.collect (r.doneOf pending) r.followers).followers ∧
        ((r.collect (r.doneOf pending) r.followers).active f).isSome := by
    intro f hf
    rw [hfollowers, hactive]
    rcases collect_cases (r.doneOf pending) f r.followers r with hsame | ⟨t, _, hmem, ht, -, -⟩
    · exact h.listed f (hsame.symm.trans hf)
    · rw [ht]
      exact ⟨hmem, rfl⟩
  -- an exception leaves nothing pending
  have hraised : ∀ f t e pending',
      (r.collect (r.doneOf pending) r.followers).phase = .raised f t e pending' →
        pending.filter (· ∉ r.doneOf pending) = [] := by
    intro f t e pending' hr
    rcases hclean.2 with hok | hall
    · rw [collect_phase (r.doneOf pending) (fun t ht => hok t (List.mem_filter.mp ht).1),
        hphase] at hr
      cases hr
    · refine List.filter_eq_nil_iff.mpr fun t ht => ?_
      simp [doneOf, ht, Option.isSome_iff_ne_none.mp (hall t ht)]
  rcases endTurn_cases (r.collect (r.doneOf pending) r.followers)
    (pending.filter (· ∉ r.doneOf pending)) with
    ⟨f, t, e, pending', hr, heq⟩ | ⟨hnot, ⟨hbreak, heq⟩ | heq | heq⟩
  · rw [heq]
    refine ⟨by simp, hlisted, by simp, by simp, ?_⟩
    rintro _ _ _ _ ⟨⟩
    exact hraised f t e pending' hr
  · rw [heq]
    refine ⟨by simp, hlisted, by simp, ?_, by simp⟩
    rintro _ ⟨⟩
    refine ⟨by rw [hfollowers]; omega, fun hnone => ?_, h.counts hphase hclean.1 hnot⟩
    rcases hbreak with hbreak | hbreak
    · exact hbreak.2
    · change (r.collect (r.doneOf pending) r.followers).requiredFollower = none at hnone
      rw [hnone] at hbreak
      cases hbreak
  · rw [heq]
    exact ⟨by simp, hlisted, by simp, by simp, by simp⟩
  · rw [heq]
    refine ⟨by simp, hlisted, ?_, by simp, by simp⟩
    rintro _ ⟨⟩
    refine ⟨by rw [hfollowers]; omega, (h.counts hphase hclean.1 hnot).imp id ?_⟩
    exact fun hcounts f t hf _ => Or.inr (hcounts f hf)

theorem Honest.step {event : RoundEvent} (h : r.Honest) (hclean : r.Clean event)
    (hstep : r.step event = some r') : r'.Honest := by
  cases stepped_of_step hstep with
  | finish task result hfree =>
    have hkept : ∀ f, r.confirms f = true →
        RoundCall.confirms { r with pool := { r.pool with
          finished := Function.update r.pool.finished task (some result) } } f = true := by
      intro f hf
      obtain ⟨t, hactive, hfin⟩ := Option.bind_eq_some_iff.mp (confirms_iff.mp hf)
      exact confirms_iff.mpr
        (Option.bind_eq_some_iff.mpr ⟨t, hactive, finished_kept hfree hfin⟩)
    refine ⟨h.rest, h.listed, fun pending hphase => ?_, fun pending hphase => ?_, h.raised⟩
    · obtain ⟨hlen, hwaiting⟩ := h.waiting pending hphase
      exact ⟨hlen, hwaiting.imp_right fun hwaiting f t hf ht =>
        (hwaiting f t hf ht).imp_right (hkept f)⟩
    · obtain ⟨hlen, hquorum, hcounts⟩ := h.returned pending hphase
      exact ⟨hlen, hquorum, hcounts.imp_right fun hcounts f hf => hkept f (hcounts f hf)⟩
  | submitted hphase =>
    refine ⟨by simp, h.listed, ?_, by simp, by simp⟩
    rintro pending ⟨⟩
    refine ⟨List.length_filterMap_le _ _, Or.inr fun f t hf ht => Or.inl ?_⟩
    exact List.mem_filterMap.mpr ⟨f, (h.listed f hf).1, ht⟩
  | submit f rest hphase => exact h.submitTurn hphase
  | wake pending hphase hdone => exact .wake h hphase hdone (hclean pending hphase)
  | timeout pending _ => exact ⟨by simp, h.listed, by simp, by simp, by simp⟩

theorem CleanRun.honest : ∀ {es : List RoundEvent} {r r' : RoundCall}, r.CleanRun es → r.Honest →
    r.runs es = some r' → r'.Honest
  | [], r, r', _, h, hrun => by
    cases hrun
    exact h
  | event :: es, r, r', hclean, h, hrun => by
    obtain ⟨r₁, hr₁, hrest⟩ := Option.bind_eq_some_iff.mp hrun
    exact (hclean.2 r₁ hr₁).honest (h.step hclean.1 hr₁) hrest

theorem start_honest (p : Pool) (followers : List NodeId) (members : Nat)
    (required : Option NodeId) : (start p followers members required).Honest := by
  refine ⟨fun rest hphase => ?_, fun f h => (by cases h), ?_, ?_, ?_⟩
  · unfold start at hphase
    cases followers with
    | nil => cases hphase
    | cons f fs =>
      cases hphase
      exact List.Subset.refl _
  all_goals
    unfold start
    cases followers <;> simp

/-- **In every clean run a round ends early only on a real quorum**, whatever the size of the
cluster, what earlier rounds have left in the slots, and in whatever order the tasks end. -/
theorem round_ends_on_quorum {p : Pool} {followers : List NodeId} {members : Nat}
    {required : Option NodeId} {es : List RoundEvent}
    (hclean : (start p followers members required).CleanRun es)
    (hrun : (start p followers members required).runs es = some r) : r.EndsOnQuorum :=
  (hclean.honest (start_honest p followers members required) hrun).endsOnQuorum

/-- An earlier round has left a task of "b" that finished with `True` after it. -/
def stalePool : Pool where
  futures := fun f => if f = "b" then some 0 else none
  finished := fun t => if t = 0 then some (.ok true) else none
  nextTask := 1

/-- The new task of "b" ends, and replaces that result before it counts; the new task of "c" is
pending. -/
def freshAnswer : List RoundEvent :=
  [.submit, .submit, .submit, .finish 1 (.ok true), .wake]

theorem round_ends_on_quorum_freshAnswer : ∃ r,
    (start stalePool ["b", "c"] 3 none).runs freshAnswer = some r ∧
      r.phase = .returned [2] .early ∧ r.EndsOnQuorum := by
  have hclean : (start stalePool ["b", "c"] 3 none).CleanRun freshAnswer := by
    refine ⟨trivial, ?_⟩
    rintro _ ⟨⟩
    refine ⟨trivial, ?_⟩
    rintro _ ⟨⟩
    refine ⟨trivial, ?_⟩
    rintro _ ⟨⟩
    refine ⟨trivial, ?_⟩
    rintro _ ⟨⟩
    refine ⟨?_, fun _ _ => trivial⟩
    rintro pending ⟨⟩
    refine ⟨Or.inr fun f hf => ?_, Or.inl fun t ht e h => ?_⟩
    · by_cases hfb : f = "b"
      · subst hfb
        rfl
      · rw [show RoundCall.results _ f = none from Function.update_of_ne hfb _ _] at hf
        cases hf
    · change t ∈ [1, 2] at ht
      rcases List.mem_cons.mp ht with rfl | ht
      · cases h
      · rw [List.mem_singleton.mp ht] at h
        cases h
  obtain ⟨r, hrun, hphase⟩ : ∃ r, (start stalePool ["b", "c"] 3 none).runs freshAnswer = some r ∧
      r.phase = .returned [2] .early := ⟨_, rfl, rfl⟩
  exact ⟨r, hrun, hphase, round_ends_on_quorum hclean hrun⟩

/-- **A stale result ends a round**: the new task of "c" fails, the new task of "b" is pending, no
follower has confirmed anything in this round, and the round ends. -/
theorem round_ends_on_stale_result : ∃ r,
    (start stalePool ["b", "c"] 3 none).runs
        [.submit, .submit, .submit, .finish 2 (.ok false), .wake] = some r ∧
      r.phase = .returned [1] .early ∧ r.followers.countP r.confirms = 0 ∧ ¬ r.EndsOnQuorum := by
  refine ⟨_, rfl, rfl, rfl, fun h => ?_⟩
  have := h rfl [1] (by decide) (Or.inl rfl)
  exact absurd this (by decide)

end RoundCall

end PyRaftKv
