/-
# One member as a peer

A member's node, its data directory and a peer of the abstract group, side by side.

* `Mirrors n p` -- what a running node has in memory is the peer `p`: its log shows the peer's
  whole log above the base, its store replays the log up to the commit point, its snapshot
  captures it at the base.
* `Saved d n` -- the data directory holds what the node has in memory, as it does between any two
  stretches.
* `OnDisk d p` -- the data directory alone determines `p` (but for its role).  This is weaker than
  `Saved`: the journal may be behind the snapshot, the commit index behind the base.
* `Up` -- all that holds of a running member, its vote count and progress table included.
-/
import PyRaftKv.Refinement.Window

open Consensus

namespace PyRaftKv

abbrev Hist := History NodeId LogEntry Int
abbrev PeerState := Peer NodeId LogEntry Int

/-! ## 1. The state machine -/

theorem foldlM_snoc {α β γ : Type} {f : β → α → Except γ β} {l : List α} {x : α} {a b c : β}
    (h : l.foldlM f a = .ok b) (hx : f b x = .ok c) : (l ++ [x]).foldlM f a = .ok c := by
  rw [List.foldlM_append, h]
  simp only [List.foldlM_cons, List.foldlM_nil, bind_pure]
  exact hx

/-- The commands of `l`, applied in order to an empty store, give `s`. -/
def Replays (l : List LogEntry) (s : KVStore) : Prop :=
  l.foldlM (fun s e => applyCommand s e.command) ({} : KVStore) = .ok s

theorem Replays.nil : Replays [] {} := rfl

theorem Replays.unique {l : List LogEntry} {s s' : KVStore} (h : Replays l s) (h' : Replays l s') :
    s = s' :=
  Except.ok.inj (h.symm.trans h')

theorem Replays.snoc {l : List LogEntry} {s s' : KVStore} {e : LogEntry} (h : Replays l s)
    (he : applyCommand s e.command = .ok s') : Replays (l ++ [e]) s' :=
  foldlM_snoc h he

/-- A command that passed the checks of `submit_commands` never fails to apply. -/
theorem applyCommand_ok {c : RaftCommand} (hc : RaftNode.validateCommand c = .ok ())
    (s : KVStore) : ∃ s', applyCommand s c = .ok s' := by
  unfold RaftNode.validateCommand at hc
  unfold applyCommand
  rcases c with ⟨_ | _ | name, key, _ | value⟩ <;> simp at hc ⊢

/-- **The apply loop**, over committed entries the log still has. -/
theorem applyEntries_replays {log : RaftLog} {l : List LogEntry} {b : Nat} (hs : Shows log l b) :
    ∀ (n : Nat) (state : RaftState) (store : KVStore) {a : Nat},
    (∀ e ∈ l.take (a + n), RaftNode.validateCommand e.command = .ok ()) →
    state.lastApplied = a → b ≤ a → a + n ≤ l.length → Replays (l.take a) store →
    ∃ store', applyEntries log n state store =
      (.ok (), { state with lastApplied := (a + n : Nat) }, store') ∧
      Replays (l.take (a + n)) store' := by
  intro n
  induction n with
  | zero =>
    intro state store a _ ha _ _ hr
    refine ⟨store, ?_, hr⟩
    rw [applyEntries, Nat.add_zero, ← ha]
  | succ n ih =>
    intro state store a hv ha hba hlen hr
    have hla : l[a]? = some l[a] := List.getElem?_eq_getElem (by omega)
    have hget : log.get (state.lastApplied + 1) = some l[a] := by
      rw [ha]
      exact hs.get_succ.mpr ⟨hba, hla⟩
    have hmem : l[a] ∈ l.take (a + (n + 1)) := by
      refine List.mem_of_getElem? (i := a) ?_
      rw [List.getElem?_take, if_pos (by omega), hla]
    obtain ⟨s', hs'⟩ := applyCommand_ok (hv _ hmem) store
    have hr' : Replays (l.take (a + 1)) s' := by
      rw [← List.take_append_getElem (show a < l.length by omega)]
      exact hr.snoc hs'
    obtain ⟨store', happ, hrep⟩ := ih { state with lastApplied := state.lastApplied + 1 } s'
      (a := a + 1) (by rwa [show a + 1 + n = a + (n + 1) by omega]) (by simp [ha]) (by omega)
      (by omega) hr'
    refine ⟨store', ?_, by rwa [show a + (n + 1) = a + 1 + n by omega]⟩
    simp only [applyEntries, hget, hs', happ]
    rw [show a + (n + 1) = a + 1 + n by omega]

theorem applyCommittedEntries_valid {log : RaftLog} {l : List LogEntry} {b a c : Nat}
    (state : RaftState) (store : KVStore) (hs : Shows log l b)
    (hv : ∀ e ∈ l.take c, RaftNode.validateCommand e.command = .ok ())
    (ha : state.lastApplied = a) (hc : state.commitIndex = c) (hba : b ≤ a) (hac : a ≤ c)
    (hlen : c ≤ l.length) (hr : Replays (l.take a) store) :
    ∃ store', applyCommittedEntries state log store =
      (.ok (), { state with lastApplied := c }, store') ∧ Replays (l.take c) store' := by
  have hn : (state.commitIndex - state.lastApplied).toNat = c - a := by omega
  have := applyEntries_replays hs (c - a) state store (a := a)
    (by rwa [show a + (c - a) = c by omega]) ha hba (by omega) hr
  unfold applyCommittedEntries
  rwa [hn, show (c : Int) = (a + (c - a) : Nat) by omega, show l.take c = l.take (a + (c - a)) by
    rw [show a + (c - a) = c by omega]]

/-- `apply_committed_entries` brings the store up to the commit index. -/
theorem applyCommittedEntries_replays {log : RaftLog} {l : List LogEntry} {b a c : Nat}
    (state : RaftState) (store : KVStore) (hs : Shows log l b) (hl : Whole l)
    (ha : state.lastApplied = a) (hc : state.commitIndex = c) (hba : b ≤ a) (hac : a ≤ c)
    (hlen : c ≤ l.length) (hr : Replays (l.take a) store) :
    ∃ store', applyCommittedEntries state log store =
      (.ok (), { state with lastApplied := c }, store') ∧ Replays (l.take c) store' :=
  applyCommittedEntries_valid state store hs (fun e he => hl.valid e (List.take_subset _ _ he)) ha
    hc hba hac hlen hr

/-! ## 2. The journal -/

namespace DataDir

variable {d : DataDir} {log log' : RaftLog}

theorem loadLog_eq_ok : d.loadLog = .ok log ↔
    (d.logFile.getD []).foldlM LogRecord.replay {} = .ok log := by
  unfold loadLog
  split <;> simp_all

/-- A record appended to the journal is replayed last. -/
theorem loadLog_append {r : LogRecord} (hd : d.loadLog = .ok log) (hr : r.replay log = .ok log') :
    (d.write (.appendLog r)).loadLog = .ok log' := by
  rw [loadLog_eq_ok] at hd ⊢
  change ((d.logFile.getD []) ++ [r]).foldlM _ _ = _
  exact foldlM_snoc hd hr

/-- A journal rewritten with one record of a log gives that log back. -/
theorem loadLog_saveLog (hterm : 0 ≤ log.baseTerm) :
    (d.writes (saveLog log)).loadLog = .ok log := by
  rw [loadLog_eq_ok]
  change [LogRecord.snapshot log.baseIndex log.baseTerm log.entries].foldlM _ _ = _
  have hnew := log.padded_shows.new_of_contiguous log.padded_contiguous hterm
  have hreplay : LogRecord.replay {} (.snapshot log.baseIndex log.baseTerm log.entries) =
      .ok log := by
    unfold RaftLog.new at hnew
    simp only [LogRecord.replay, RaftLog.new]
    split_ifs at hnew ⊢ with h1 h2 h3
    exact hnew
  rw [List.foldlM_cons, hreplay]
  rfl

/-- So does one of a whole log. -/
theorem loadLog_rewrite {l : List LogEntry} {b : Nat} (hs : Shows log l b) (hl : Whole l) :
    (d.writes (saveLog log)).loadLog = .ok log := by
  refine loadLog_saveLog ?_
  rw [hs.baseTerm]
  exact (hl.of_isPrefix (List.take_prefix _ _)).lastStamp_nonneg

@[simp] theorem writes_nil : d.writes [] = d := rfl

theorem writes_cons (w : Write) (ws : List Write) : d.writes (w :: ws) = (d.write w).writes ws :=
  rfl

theorem writes_append (ws ws' : List Write) : d.writes (ws ++ ws') = (d.writes ws).writes ws' :=
  List.foldl_append

/-- What the state file decodes to. -/
def savedState (d : DataDir) : PersistedState := d.stateFile.getD {}

theorem loadState_eq (v : NodeId) : d.loadState v =
    { nodeId := v, currentTerm := d.savedState.currentTerm, votedFor := d.savedState.votedFor,
      commitIndex := d.savedState.commitIndex } := by
  unfold loadState savedState
  rcases d.stateFile with _ | s <;> rfl

@[simp] theorem savedState_saveState (s : PersistedState) :
    (d.write (.saveState s)).savedState = s := rfl

@[simp] theorem savedState_saveSnapshot (s : RaftSnapshot) :
    (d.write (.saveSnapshot s)).savedState = d.savedState := rfl

@[simp] theorem savedState_rewriteLog (rs : List LogRecord) :
    (d.write (.rewriteLog rs)).savedState = d.savedState := rfl

@[simp] theorem savedState_appendLog (r : LogRecord) :
    (d.write (.appendLog r)).savedState = d.savedState := rfl

@[simp] theorem loadSnapshot_saveState (s : PersistedState) :
    (d.write (.saveState s)).loadSnapshot = d.loadSnapshot := rfl

@[simp] theorem loadSnapshot_saveSnapshot (s : RaftSnapshot) :
    (d.write (.saveSnapshot s)).loadSnapshot = s := rfl

@[simp] theorem loadSnapshot_rewriteLog (rs : List LogRecord) :
    (d.write (.rewriteLog rs)).loadSnapshot = d.loadSnapshot := rfl

@[simp] theorem loadSnapshot_appendLog (r : LogRecord) :
    (d.write (.appendLog r)).loadSnapshot = d.loadSnapshot := rfl

@[simp] theorem loadLog_saveState (s : PersistedState) :
    (d.write (.saveState s)).loadLog = d.loadLog := rfl

@[simp] theorem loadLog_saveSnapshot (s : RaftSnapshot) :
    (d.write (.saveSnapshot s)).loadLog = d.loadLog := rfl

@[simp] theorem length_appendLogEntries (es : List LogEntry) :
    (appendLogEntries es).length = es.length := List.length_map _

/-- The first records are the records of the first entries. -/
theorem take_appendLogEntries (es : List LogEntry) (k : Nat) :
    (appendLogEntries es).take k = appendLogEntries (es.take k) := List.map_take.symm

/-- Appending entries one by one extends the log, and touches no other file. -/
theorem writes_appendLogEntries : ∀ (es : List LogEntry) {d : DataDir} {log : RaftLog}
    {l : List LogEntry} {b : Nat}, d.loadLog = .ok log → Shows log l b →
    Contiguous 0 (l ++ es) →
    ∃ log', (d.writes (appendLogEntries es)).loadLog = .ok log' ∧ Shows log' (l ++ es) b ∧
      (d.writes (appendLogEntries es)).savedState = d.savedState ∧
      (d.writes (appendLogEntries es)).loadSnapshot = d.loadSnapshot := by
  intro es
  induction es with
  | nil =>
    intro d log l b hd hs _
    exact ⟨log, hd, by simpa using hs, rfl, rfl⟩
  | cons e es ih =>
    intro d log l b hd hs hc
    have he : e.index = l.length + 1 := by
      have := hc l.length e (by simp)
      omega
    obtain ⟨log₁, happ, hs₁⟩ := hs.appendEntry he
    obtain ⟨log', hd', hs', hst, hsn⟩ := ih (loadLog_append (r := .append e) hd happ) hs₁
      (by rwa [List.append_cons] at hc)
    refine ⟨log', hd', by rwa [List.append_cons], ?_, ?_⟩
    · exact hst
    · exact hsn

end DataDir

/-! ## 3. Memory and disk -/

/-- The snapshot holds the first `b` entries of `l`, applied. -/
structure Captures (s : RaftSnapshot) (l : List LogEntry) (b : Nat) : Prop where
  index : s.lastIncludedIndex = b
  term : s.lastIncludedTerm = lastStamp (l.take b)
  state : Replays (l.take b) ⟨s.state⟩

/-- A snapshot of a whole log passes its own checks. -/
theorem RaftSnapshot.new_captures {l : List LogEntry} (hl : Whole l) (k : Nat) (data : Dict)
    (hr : Replays (l.take k) ⟨data⟩) :
    ∃ s, RaftSnapshot.new k (lastStamp (l.take k)) data = .ok s ∧ Captures s l k := by
  have hterm := (hl.of_isPrefix (List.take_prefix k l)).lastStamp_nonneg
  have hzero : ¬ ((k : Int) = 0 ∧ lastStamp (l.take k) ≠ 0) := by
    rintro ⟨hk, hne⟩
    obtain rfl : k = 0 := by omega
    exact hne rfl
  unfold RaftSnapshot.new
  rw [dif_neg (by omega), dif_neg (by omega), dif_neg hzero]
  exact ⟨_, rfl, rfl, rfl, hr⟩

def NodeRole.role : NodeRole → Role
  | .follower => .follower
  | .candidate => .candidate
  | .leader => .leader

@[simp] theorem NodeRole.role_leader {r : NodeRole} : r.role = .leader ↔ r = .leader := by
  cases r <;> simp [role]

@[simp] theorem NodeRole.role_candidate {r : NodeRole} : r.role = .candidate ↔ r = .candidate := by
  cases r <;> simp [role]

@[simp] theorem NodeRole.role_follower {r : NodeRole} : r.role = .follower ↔ r = .follower := by
  cases r <;> simp [role]

/-- What the node has in memory is the peer `p`. -/
structure Mirrors (n : RaftNode) (p : PeerState) : Prop where
  term : p.term = n.state.currentTerm
  vote : p.vote = n.state.votedFor
  role : p.role = n.state.role.role
  commit : n.state.commitIndex = p.commit
  applied : n.state.lastApplied = p.commit
  log : Shows n.log p.log p.base
  store : Replays (p.log.take p.commit) n.store
  snapshot : Captures n.snapshot p.log p.base

/-- The data directory holds what the node has in memory. -/
structure Saved (d : DataDir) (n : RaftNode) : Prop where
  state : d.savedState = n.state.persisted
  snapshot : d.loadSnapshot = n.snapshot
  log : d.loadLog = .ok n.log

/-- What the data directory alone says of the peer. -/
structure OnDisk (d : DataDir) (p : PeerState) : Prop where
  term : d.savedState.currentTerm = p.term
  vote : d.savedState.votedFor = p.vote
  commit : max d.savedState.commitIndex p.base = p.commit
  snapshot : Captures d.loadSnapshot p.log p.base
  log : ∃ journal log, d.loadLog = .ok journal ∧ journal.baseIndex ≤ p.base ∧
    journal.installSnapshotBoundary p.base (lastStamp (p.log.take p.base)) = .ok log ∧
    Shows log p.log p.base

/-- What is saved between two stretches determines the peer. -/
theorem Saved.onDisk {d : DataDir} {n : RaftNode} {p : PeerState} (hd : Saved d n)
    (hm : Mirrors n p) (hb : p.base ≤ p.commit) : OnDisk d p where
  term := by rw [hd.state, hm.term]; rfl
  vote := by rw [hd.state, hm.vote]; rfl
  commit := by
    rw [hd.state]
    change max n.state.commitIndex _ = _
    rw [hm.commit]
    omega
  snapshot := hd.snapshot ▸ hm.snapshot
  log := by
    obtain ⟨log, hlog, hs⟩ := hm.log.install_kept le_rfl hm.log.le
    exact ⟨n.log, log, hd.log, hm.log.base.le, hlog, hs⟩

/-- The role is not on disk. -/
theorem OnDisk.role {d : DataDir} {p : PeerState} (hd : OnDisk d p) (r : Role) :
    OnDisk d { p with role := r } :=
  ⟨hd.term, hd.vote, hd.commit, hd.snapshot, hd.log⟩

/-! ## 4. A running member -/

/-- The majorities of a member set. -/
abbrev Members.quorums (m : Members) : Quorums NodeId := majorities m.ids.toFinset

/-- Three members, to look at. -/
def threeMembers : Members := { ids := ["a", "b", "c"] }

theorem Members.card (m : Members) : m.ids.toFinset.card = m.size :=
  List.toFinset_card_of_nodup m.nodup

theorem Members.mem_others {m : Members} {u v : NodeId} : u ∈ m.others v ↔ u ∈ m ∧ u ≠ v := by
  change u ∈ m.ids.filter _ ↔ u ∈ m.ids ∧ u ≠ v
  simp

/-- A duplicate-free list of enough members is a quorum. -/
theorem Members.isQuorum {m : Members} {vs : List NodeId} (hnd : vs.Nodup)
    (hsub : ∀ u ∈ vs, u ∈ m) (hlen : m.quorumSize ≤ vs.length) :
    m.quorums.isQuorum {u | u ∈ vs} := by
  refine ⟨vs.toFinset, fun u hu => ?_, fun u hu => ?_, ?_⟩
  · exact List.mem_toFinset.mpr (hsub u (List.mem_toFinset.mp hu))
  · simpa using hu
  · rw [m.card, List.toFinset_card_of_nodup hnd]
    unfold Members.quorumSize at hlen
    omega

/-- The leader's progress table: no index beyond the log, and in the leader's own term only
acknowledged entries up to a match index. -/
structure Table (m : Members) (v : NodeId) (r : LeaderReplication) (p : PeerState) (h : Hist) :
    Prop where
  followers : r.followers = m.others v
  next_pos : ∀ f, 1 ≤ r.nextIndex f
  next_le : ∀ f, r.nextIndex f ≤ p.log.length + 1
  match_nonneg : ∀ f, 0 ≤ r.matchIndex f
  match_le : ∀ f, r.matchIndex f ≤ p.log.length
  acked : p.role = .leader → ∀ (f : NodeId) (i : Nat) (e : LogEntry),
    (i : Int) + 1 ≤ r.matchIndex f → p.log[i]? = some e → e.term = p.term →
    (f, p.term, i + 1) ∈ h.acks

/-- Votes counted in a candidacy are ballots cast by members. -/
structure Votes (m : Members) (v : NodeId) (voters : List NodeId) (p : PeerState) (h : Hist) :
    Prop where
  nodup : voters.Nodup
  member : ∀ u ∈ voters, u ∈ m
  cast : ∀ u ∈ voters, ∃ b ∈ h.ballots, b.voter = u ∧ b.candidate = v ∧ b.term = p.term

/-- All that holds of a running member between two stretches. -/
structure Up (m : Members) (v : NodeId) (n : RaftNode) (d : DataDir) (p : PeerState) (h : Hist) :
    Prop where
  id : n.nodeId = v
  stateId : n.state.nodeId = v
  members : n.members = m
  member : v ∈ m
  mirrors : Mirrors n p
  saved : Saved d n
  votes : n.state.role = .candidate → Votes m v n.election.votesReceived p h
  table : ∀ r, n.replication = some r → Table m v r p h

section Extension

variable {m : Members} {v : NodeId} {p : PeerState} {h h' : Hist}

theorem Table.extend {r : LeaderReplication} (ht : Table m v r p h) (ha : h.acks ⊆ h'.acks) :
    Table m v r p h' :=
  { ht with acked := fun hr f i e hi he hte => ha (ht.acked hr f i e hi he hte) }

theorem Votes.extend {voters : List NodeId} (hv : Votes m v voters p h)
    (hb : h.ballots ⊆ h'.ballots) : Votes m v voters p h' :=
  { hv with cast := fun u hu => (hv.cast u hu).imp fun _ hx => ⟨hb hx.1, hx.2⟩ }

theorem Up.extend {n : RaftNode} {d : DataDir} (hu : Up m v n d p h) (hb : h.ballots ⊆ h'.ballots)
    (ha : h.acks ⊆ h'.acks) : Up m v n d p h' :=
  { hu with
    votes := fun hr => (hu.votes hr).extend hb
    table := fun r hr => (hu.table r hr).extend ha }

end Extension

end PyRaftKv
