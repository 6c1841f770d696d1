/-
# What a stretch may do

`Lawful` is the promise every stretch keeps, stated once: the node it leaves is again a running
member, after some moves of its peer; and wherever a crash cuts its durable effects short, what is
on disk is what some moves of the peer would leave.  `lost` says which positions of the log the
stretch may take away, which only what a leader sends can do.

Most stretches ask for at most one durable effect, and a crash leaves it done or not done at all
(`Lawful.of_single`); the four that ask for more have their own modules.
-/
import PyRaftKv.Refinement.Member

open Consensus

namespace PyRaftKv

/-! ## 1. Running `NodeM` -/

/-- An outcome with earlier effects. -/
def Outcome.behind {α : Type} (ws : List Effect) (o : Outcome α) : Outcome α :=
  ⟨o.result, o.node, ws ++ o.effects⟩

/-- What is left when `f` goes on after `o`. -/
def Outcome.andThen {α β : Type} (o : Outcome α) (f : α → NodeM β) : Outcome β :=
  match o with
  | ⟨.error e, n, ws⟩ => ⟨.error e, n, ws⟩
  | ⟨.ok a, n, ws⟩ => (f a n).behind ws

namespace NodeM

variable {α β : Type} {n n' : RaftNode}

theorem bind_run (m : NodeM α) (f : α → NodeM β) (n : RaftNode) :
    (m >>= f) n = (m n).andThen f := by
  change NodeM.bind m f n = _
  unfold NodeM.bind Outcome.andThen Outcome.behind
  rcases m n with ⟨_ | _, _, _⟩ <;> rfl

@[simp] theorem andThen_ok (a : α) (n : RaftNode) (ws : List Effect) (f : α → NodeM β) :
    Outcome.andThen ⟨.ok a, n, ws⟩ f = (f a n).behind ws := rfl

@[simp] theorem behind_nil (o : Outcome α) : o.behind [] = o := rfl

@[simp] theorem behind_mk (r : Except RaftError α) (n : RaftNode) (ws ws' : List Effect) :
    Outcome.behind ws ⟨r, n, ws'⟩ = ⟨r, n, ws ++ ws'⟩ := rfl

@[simp] theorem andThen_error (e : RaftError) (n : RaftNode) (ws : List Effect) (f : α → NodeM β) :
    Outcome.andThen ⟨.error e, n, ws⟩ f = ⟨.error e, n, ws⟩ := rfl

@[simp] theorem pure_run (a : α) (n : RaftNode) : (pure a : NodeM α) n = ⟨.ok a, n, []⟩ := rfl

@[simp] theorem get_run (n : RaftNode) : NodeM.get n = ⟨.ok n, n, []⟩ := rfl

@[simp] theorem modify_run (f : RaftNode → RaftNode) (n : RaftNode) :
    NodeM.modify f n = ⟨.ok (), f n, []⟩ := rfl

@[simp] theorem raise_run (e : RaftError) (n : RaftNode) :
    (raise e : NodeM α) n = ⟨.error e, n, []⟩ := rfl

@[simp] theorem lift_ok_run (a : α) (n : RaftNode) : lift (.ok a) n = ⟨.ok a, n, []⟩ := rfl

@[simp] theorem lift_error_run (e : RaftError) (n : RaftNode) :
    (lift (.error e) : NodeM α) n = ⟨.error e, n, []⟩ := rfl

@[simp] theorem persist_run (ws : List Write) (n : RaftNode) :
    persist ws n = ⟨.ok (), n, ws.map fun w => ⟨n, w⟩⟩ := rfl

@[simp] theorem ite_run (c : Prop) [Decidable c] (m m' : NodeM α) (n : RaftNode) :
    (if c then m else m') n = if c then m n else m' n := by
  split <;> rfl

/-- Every run of `m` relates the node it starts on to the node it leaves. -/
def Keeping (R : RaftNode → RaftNode → Prop) (m : NodeM α) : Prop := ∀ n, R n (m n).node

namespace Keeping

variable {R R' : RaftNode → RaftNode → Prop}

theorem modify {f : RaftNode → RaftNode} (hf : ∀ n, R n (f n)) : Keeping R (NodeM.modify f) := hf

theorem mono (hR : ∀ {n n'}, R n n' → R' n n') {m : NodeM α} (hm : Keeping R m) :
    Keeping R' m := fun n => hR (hm n)

theorem ite {c : Prop} [Decidable c] {m m' : NodeM α} (hm : Keeping R m)
    (hm' : Keeping R m') : Keeping R (if c then m else m') := by
  split
  · exact hm
  · exact hm'

theorem bind [IsTrans RaftNode R] {m : NodeM α} {f : α → NodeM β} (hm : Keeping R m)
    (hf : ∀ a, Keeping R (f a)) : Keeping R (m >>= f) := by
  intro n
  have h := hm n
  rw [bind_run]
  rcases hrun : m n with ⟨_ | a, n', ws⟩
  · rw [hrun] at h
    exact h
  · rw [hrun] at h
    exact IsTrans.trans _ _ _ h (hf a n')

section Refl

variable [Std.Refl R]

theorem pure (a : α) : Keeping R (Pure.pure a : NodeM α) := fun n => Std.Refl.refl n

theorem get : Keeping R NodeM.get := fun n => Std.Refl.refl n

theorem raise (e : RaftError) : Keeping R (NodeM.raise e : NodeM α) := fun n => Std.Refl.refl n

theorem lift (x : Except RaftError α) : Keeping R (NodeM.lift x) := by
  rcases x with e | a
  · exact raise e
  · exact pure a

theorem persist (ws : List Write) : Keeping R (NodeM.persist ws) := fun n => Std.Refl.refl n

end Refl

end Keeping

/-- The effects of a write are that write. -/
@[simp] theorem writes_of_persist (n : RaftNode) (ws : List Write) :
    (ws.map fun w => (⟨n, w⟩ : Effect)).map (·.write) = ws := by
  rw [List.map_map]
  exact List.map_id ws

end NodeM

/-! ## 2. Lawful stretches -/

/-- A running member, with all that is known of the history it belongs to. -/
structure Live (m : Members) (v : NodeId) (n : RaftNode) (d : DataDir) (p : PeerState) (h : Hist) :
    Prop extends Up m v n d p h where
  history : h.Sound m.quorums
  peer : p.Sound h v
  whole : ∀ t, Whole (h.leaderLog t)

/-- What a stretch may leave of a whole log: every entry but those in `lost`. -/
def Keeps (lost : Nat → Prop) (l l' : List LogEntry) : Prop :=
  ∀ (i : Nat) (e : LogEntry), l[i]? = some e → l'[i]? = some e ∨ lost i

/-- The ballots a stretch of `v` adds are its own, and of the term it leaves. -/
def Casts (v : NodeId) (h h' : Hist) (p' : PeerState) : Prop :=
  ∀ b ∈ h'.ballots, b ∈ h.ballots ∨ b.voter = v ∧ b.term = p'.term

/-- A crash that leaves the data directory `d'`. -/
structure Crashed (m : Members) (v : NodeId) (h : Hist) (p : PeerState) (lost : Nat → Prop)
    (d' : DataDir) (h' : Hist) (p' : PeerState) : Prop where
  moves : Moves m.quorums v h p h' p'
  whole : ∀ t, Whole (h'.leaderLog t)
  elections : h'.elections = h.elections
  casts : Casts v h h' p'
  kept : Keeps lost p.log p'.log
  disk : OnDisk d' p'

/-- **What a stretch promises**: after it, and after a crash within it. -/
structure Lawful (m : Members) (v : NodeId) (h : Hist) (p : PeerState) (d : DataDir)
    (lost : Nat → Prop) (n' : RaftNode) (ws : List Write) (h' : Hist) (p' : PeerState) : Prop where
  moves : Moves m.quorums v h p h' p'
  whole : ∀ t, Whole (h'.leaderLog t)
  elections : h'.elections = h.elections ∨
    (∀ e ∈ h.elections, e.term ≠ p'.term) ∧ p'.role = .leader ∧
      ∃ R, h'.elections = ⟨p'.term, v, R⟩ :: h.elections
  casts : Casts v h h' p'
  kept : Keeps lost p.log p'.log
  up : Up m v n' (d.writes ws) p' h'
  crash : ∀ k < ws.length, ∃ h'' p'', Crashed m v h p lost (d.writes (ws.take k)) h'' p'' ∧
    h''.decisions = h.decisions

theorem Keeps.refl (lost : Nat → Prop) (l : List LogEntry) : Keeps lost l l :=
  fun _ _ he => Or.inl he

theorem Keeps.of_isPrefix {lost : Nat → Prop} {l l' : List LogEntry} (hp : l <+: l') :
    Keeps lost l l' :=
  fun _ _ he => Or.inl (getElem?_mono hp he)

theorem Casts.of_eq {v : NodeId} {h h' : Hist} {p' : PeerState} (hb : h'.ballots = h.ballots) :
    Casts v h h' p' := fun _ hmem => Or.inl (hb ▸ hmem)

section Lemmas

variable {m : Members} {v : NodeId} {n n' : RaftNode} {d : DataDir} {p p' : PeerState}
  {h h' : Hist} {lost : Nat → Prop} {ws : List Write}

theorem Live.onDisk (hl : Live m v n d p h) : OnDisk d p :=
  hl.saved.onDisk hl.mirrors hl.peer.base_le

theorem Live.log_whole (hl : Live m v n d p h) : Whole p.log :=
  Whole.of_traced hl.whole hl.peer.traced

/-- A crash before the first durable effect. -/
theorem Live.crashed (hl : Live m v n d p h) : Crashed m v h p lost d h p :=
  ⟨.refl, hl.whole, rfl, .of_eq rfl, Keeps.refl _ _, hl.onDisk⟩

/-- With at most one durable effect, a crash finds the member as it was. -/
theorem Lawful.of_single (hl : Live m v n d p h) (hw : ws.length ≤ 1)
    (moves : Moves m.quorums v h p h' p') (whole : ∀ t, Whole (h'.leaderLog t))
    (elections : h'.elections = h.elections ∨
      (∀ e ∈ h.elections, e.term ≠ p'.term) ∧ p'.role = .leader ∧
        ∃ R, h'.elections = ⟨p'.term, v, R⟩ :: h.elections)
    (casts : Casts v h h' p') (kept : Keeps lost p.log p'.log)
    (up : Up m v n' (d.writes ws) p' h') : Lawful m v h p d lost n' ws h' p' := by
  refine ⟨moves, whole, elections, casts, kept, up, fun k hk => ?_⟩
  obtain rfl : k = 0 := by omega
  exact ⟨h, p, hl.crashed, rfl⟩

/-- A stretch that changes nothing the peer sees. -/
theorem Lawful.quiet (hl : Live m v n d p h) (up : Up m v n' d p h) :
    Lawful m v h p d lost n' [] h p :=
  .of_single hl (Nat.zero_le _) .refl hl.whole (Or.inl rfl) (.of_eq rfl) (Keeps.refl _ _) up

/-- A stretch may lose less than it is allowed to. -/
theorem Lawful.mono {lost' : Nat → Prop} (hla : Lawful m v h p d lost n' ws h' p')
    (hlost : ∀ i, lost i → lost' i) : Lawful m v h p d lost' n' ws h' p' :=
  { hla with
    kept := fun i e he => (hla.kept i e he).imp_right (hlost i)
    crash := fun k hk => by
      obtain ⟨h'', p'', hc, hdec⟩ := hla.crash k hk
      exact ⟨h'', p'', { hc with kept := fun i e he => (hc.kept i e he).imp_right (hlost i) },
        hdec⟩ }

/-- The member after a lawful stretch. -/
theorem Lawful.live (hla : Lawful m v h p d lost n' ws h' p') (hl : Live m v n d p h) :
    Live m v n' (d.writes ws) p' h' :=
  have hpr := hla.moves.sound hl.history hl.peer
  { hla.up with history := hpr.history, peer := hpr.peer, whole := hla.whole }

/-- What a running member keeps does not depend on its timer. -/
theorem Up.setTimer (hu : Up m v n d p h) (timer : ElectionTimer) :
    Up m v { n with timer } d p h :=
  { hu with
    mirrors := { hu.mirrors with }
    saved := { hu.saved with } }

/-- Nor on the table, if that is a table or nothing. -/
theorem Up.setReplication (hu : Up m v n d p h) (r : Option LeaderReplication)
    (hr : ∀ r', r = some r' → Table m v r' p h) : Up m v { n with replication := r } d p h :=
  { hu with
    mirrors := { hu.mirrors with }
    saved := { hu.saved with }
    table := hr }

theorem dropReplication_only (n : RaftNode) :
    ∃ replication, n.dropReplication = { n with replication } := by
  unfold RaftNode.dropReplication
  split
  · exact ⟨none, rfl⟩
  · exact ⟨n.replication, rfl⟩

theorem Up.dropReplication (hu : Up m v n d p h) : Up m v n.dropReplication d p h := by
  unfold RaftNode.dropReplication
  split
  · exact hu.setReplication none (by simp)
  · exact hu

/-! ## 3. The leader's table -/

/-- **A leader's table is there after `_initialize_leader_replication`**, the old one if there was
one. -/
theorem initializeLeaderReplication_run (hu : Up m v n d p h) :
    ∃ r, RaftNode.initializeLeaderReplication n = ⟨.ok (), { n with replication := r }, []⟩ ∧
      (∀ r', r = some r' → Table m v r' p h) ∧ (n.state.role = .leader → r.isSome) := by
  simp only [RaftNode.initializeLeaderReplication, NodeM.bind_run, NodeM.get_run,
    NodeM.andThen_ok, NodeM.ite_run, NodeM.behind_nil]
  by_cases hrole : n.state.role = .leader
  · rw [if_neg (not_not.mpr hrole)]
    rcases hr : n.replication with _ | r
    · have hmem : n.state.nodeId ∈ n.members := by
        rw [hu.stateId, hu.members]
        exact hu.member
      simp only [Option.isNone_none, if_true, LeaderReplication.new, hrole, ne_eq,
        not_true_eq_false, if_false, hmem, NodeM.lift_ok_run, NodeM.andThen_ok, NodeM.modify_run,
        NodeM.behind_nil]
      refine ⟨_, rfl, ?_, fun _ => rfl⟩
      rintro r' ⟨⟩
      have hlast := hu.mirrors.log.lastIndex
      refine ⟨?_, ?_, ?_, ?_, ?_, ?_⟩
      · rw [hu.stateId, hu.members]
      · intro f
        change 1 ≤ n.log.lastIndex + 1
        omega
      · exact fun f => (congrArg (· + 1) hlast).le
      · exact fun f => le_rfl
      · exact fun f => Int.natCast_nonneg _
      · intro _ f i e (hi : (i : Int) + 1 ≤ 0)
        omega
    · rw [if_neg (by simp)]
      refine ⟨some r, ?_, ?_, fun _ => rfl⟩
      · rw [← hr]
        rfl
      · rintro r' ⟨⟩
        exact hu.table r hr
  · rw [if_pos hrole]
    exact ⟨none, rfl, by simp, fun hlead => absurd hlead hrole⟩

end Lemmas

end PyRaftKv
