/-
# Elections: `handle_request_vote`, `tick`, `handle_timeout_now`

Each stretch that can change a member's term, vote or role without touching its log.  All of them
write the state file at most once, so a crash leaves a vote or a term either made and durable or
not made; an answer or a request leaves the node after that.
-/
import PyRaftKv.Refinement.Stretch

open Consensus

namespace PyRaftKv

variable {m : Members} {v : NodeId} {n : RaftNode} {d : DataDir} {p : PeerState} {h h' : Hist}

/-! ## 1. Changing the state record -/

/-- The peer of a node whose state record becomes `s`. -/
def withState (p : PeerState) (s : RaftState) : PeerState :=
  { p with term := s.currentTerm, vote := s.votedFor, role := s.role.role }

@[simp] theorem withState_log (s : RaftState) : (withState p s).log = p.log := rfl

theorem Mirrors.withState (hm : Mirrors n p) : withState p n.state = p := by
  have h1 := hm.term
  have h2 := hm.vote
  have h3 := hm.role
  obtain ⟨term, vote, role, log, commit, base⟩ := p
  simp only at h1 h2 h3
  subst h1 h2 h3
  rfl

theorem Mirrors.setState (hm : Mirrors n p) {s : RaftState}
    (hc : s.commitIndex = n.state.commitIndex) (ha : s.lastApplied = n.state.lastApplied) :
    Mirrors { n with state := s } (PyRaftKv.withState p s) where
  term := rfl
  vote := rfl
  role := rfl
  commit := hc.trans hm.commit
  applied := ha.trans hm.applied
  log := hm.log
  store := hm.store
  snapshot := hm.snapshot

theorem Saved.setState (hd : Saved d n) (s : RaftState) :
    Saved (d.writes (saveState s)) { n with state := s } :=
  ⟨rfl, hd.snapshot, hd.log⟩

/-- A table goes on while the log does, unless a new term is led. -/
theorem Table.setState {r : LeaderReplication} (ht : Table m v r p h) {s : RaftState}
    (ha : h.acks ⊆ h'.acks)
    (hlead : s.role = .leader → (p.role = .leader ∧ p.term = s.currentTerm) ∨
      ∀ e ∈ p.log, e.term < s.currentTerm) : Table m v r (withState p s) h' where
  followers := ht.followers
  next_pos := ht.next_pos
  next_le := ht.next_le
  match_nonneg := ht.match_nonneg
  match_le := ht.match_le
  acked hr f i e hi he hte := by
    rcases hlead (NodeRole.role_leader.mp hr) with ⟨hpr, hpt⟩ | hlt
    · have := ha (ht.acked hpr f i e hi he (hte.trans hpt.symm))
      rwa [hpt] at this
    · exact absurd hte (hlt e (List.mem_of_getElem? he)).ne

/-- **A new state record, saved**, and the votes it was reached with. -/
theorem Up.setState (hu : Up m v n d p h) (h' : Hist) {s : RaftState} {d' : DataDir}
    (hd : Saved d' { n with state := s }) (hid : s.nodeId = n.state.nodeId)
    (hc : s.commitIndex = n.state.commitIndex) (ha : s.lastApplied = n.state.lastApplied)
    (hacks : h.acks ⊆ h'.acks) (election : ElectionTracker)
    (hvotes : s.role = .candidate → Votes m v election.votesReceived (withState p s) h')
    (hlead : s.role = .leader → (p.role = .leader ∧ p.term = s.currentTerm) ∨
      ∀ e ∈ p.log, e.term < s.currentTerm) :
    Up m v { n with state := s, election } d' (withState p s) h' where
  id := hu.id
  stateId := hid.trans hu.stateId
  members := hu.members
  member := hu.member
  mirrors := { hu.mirrors.setState hc ha with }
  saved := { hd with }
  votes := hvotes
  table r hr := (hu.table r hr).setState hacks hlead

/-- Writing the state record again changes nothing. -/
theorem Up.persisted (hu : Up m v n d p h) : Up m v n (d.writes (saveState n.state)) p h :=
  { hu with saved := ⟨rfl, hu.saved.snapshot, hu.saved.log⟩ }

/-! ## 2. Following a term -/

@[simp] theorem RaftState.follow_currentTerm (s : RaftState) (term : Int)
    (leaderId : Option NodeId) : (s.follow term leaderId).currentTerm = term := rfl

@[simp] theorem RaftState.follow_role (s : RaftState) (term : Int) (leaderId : Option NodeId) :
    (s.follow term leaderId).role = .follower := rfl

/-- `become_follower` is a move: to a newer term, or out of a role in the same term. -/
theorem follow_moves {Q : Quorums NodeId} (hm : Mirrors n p) {term : Int}
    (ht : n.state.currentTerm ≤ term) (leaderId : Option NodeId) :
    Moves Q v h p h (withState p (n.state.follow term leaderId)) := by
  rcases ht.lt_or_eq with hlt | rfl
  · have := (Move.observe (Q := Q) (v := v) (h := h) (p := p) term (hm.term ▸ hlt)).moves
    unfold withState RaftState.follow
    simpa only [if_pos hlt, NodeRole.role] using this
  · have := (Move.stepDown (Q := Q) (v := v) (h := h) (p := p)).moves
    unfold withState RaftState.follow
    simpa only [lt_irrefl, if_false, gt_iff_lt, ← hm.term, ← hm.vote, NodeRole.role] using this

/-- A node that follows keeps its place as a member, whatever it was before. -/
theorem Up.follow (hu : Up m v n d p h) (term : Int) (leaderId : Option NodeId) :
    Up m v { n with state := n.state.follow term leaderId }
      (d.writes (saveState (n.state.follow term leaderId)))
      (withState p (n.state.follow term leaderId)) h :=
  hu.setState h (hu.saved.setState (n.state.follow term leaderId)) rfl rfl rfl subset_rfl n.election
    (fun hr => nomatch hr) (fun hr => nomatch hr)

/-! ## 3. Votes -/

/-- The request of a candidate: its own ballot is on record, with the log the request tells of. -/
def Candidacy (h : Hist) (r : RequestVoteRequest) : Prop :=
  ∃ b ∈ h.ballots, b.voter = r.candidateId ∧ b.candidate = r.candidateId ∧ b.term = r.term ∧
    r.lastLogIndex = b.log.length ∧ r.lastLogTerm = lastStamp b.log

/-- The vote comparison is over whole logs. -/
theorem isCandidateLogUpToDate_iff {l l' : List LogEntry} :
    isCandidateLogUpToDate l.length (lastStamp l) l'.length (lastStamp l') = true ↔
      UpToDate l l' := by
  unfold isCandidateLogUpToDate UpToDate
  split
  · rename_i hne
    simp only [gt_iff_lt, decide_eq_true_eq]
    exact ⟨Or.inl, fun hh => hh.resolve_right fun heq => hne heq.1.symm⟩
  · rename_i heq
    rw [not_not] at heq
    simp [heq]

/-- **`handle_request_vote` of `raft/vote.py`**: moves of the voter's peer, and a ballot on record
for every vote granted. -/
theorem handleRequestVote_moves (hl : Live m v n d p h) {r : RequestVoteRequest}
    (hr : Candidacy h r) :
    ∃ a s h', PyRaftKv.handleRequestVote n.state r n.log.lastIndex n.log.lastTerm = .ok (a, s) ∧
      Moves m.quorums v h p h' (withState p s) ∧ h.Extends h' ∧ Casts v h h' (withState p s) ∧
      (h'.elections = h.elections ∧ h'.leaderLog = h.leaderLog ∧ h'.decisions = h.decisions) ∧
      (s.nodeId = n.state.nodeId ∧ s.commitIndex = n.state.commitIndex ∧
        s.lastApplied = n.state.lastApplied) ∧
      (s.role ≠ .follower → s.role = n.state.role ∧ s.currentTerm = n.state.currentTerm) ∧
      a.term = s.currentTerm ∧
      (a.voteGranted = true → s.currentTerm = r.term ∧ ∃ b ∈ h'.ballots,
        b.voter = v ∧ b.candidate = r.candidateId ∧ b.term = r.term) := by
  obtain ⟨b, hb, hbv, hbc, hbt, hidx, hterm⟩ := hr
  have hm := hl.mirrors
  by_cases hold : r.term < n.state.currentTerm
  · unfold PyRaftKv.handleRequestVote
    rw [if_pos hold]
    exact ⟨_, _, h, rfl, by rw [hm.withState]; exact .refl, .refl h, .of_eq rfl, ⟨rfl, rfl, rfl⟩,
      ⟨rfl, rfl, rfl⟩, fun _ => ⟨rfl, rfl⟩, rfl, by simp⟩
  -- the state in which the vote is decided: that of the candidate's term
  obtain ⟨s, hs, hmoves, hst, hrole, hrest⟩ : ∃ s,
      PyRaftKv.handleRequestVote n.state r n.log.lastIndex n.log.lastTerm =
        (if (s.votedFor = none ∨ s.votedFor = some r.candidateId) ∧
            isCandidateLogUpToDate r.lastLogIndex r.lastLogTerm n.log.lastIndex n.log.lastTerm then
          .ok (⟨s.currentTerm, true⟩, { s with votedFor := some r.candidateId })
        else .ok (⟨s.currentTerm, false⟩, s)) ∧
      Moves m.quorums v h p h (withState p s) ∧ s.currentTerm = r.term ∧
      (s.role ≠ .follower → s.role = n.state.role ∧ s.currentTerm = n.state.currentTerm) ∧
      s.nodeId = n.state.nodeId ∧ s.commitIndex = n.state.commitIndex ∧
        s.lastApplied = n.state.lastApplied := by
    by_cases hnew : r.term > n.state.currentTerm
    · refine ⟨n.state.follow r.term none, ?_, follow_moves hm hnew.le none, rfl,
        fun hne => absurd rfl hne, rfl, rfl, rfl⟩
      unfold PyRaftKv.handleRequestVote
      simp only [if_neg hold, if_pos hnew, RaftState.becomeFollower_ok none hnew.le]
      rfl
    · refine ⟨n.state, ?_, by rw [hm.withState]; exact .refl, by omega, fun _ => ⟨rfl, rfl⟩,
        rfl, rfl, rfl⟩
      unfold PyRaftKv.handleRequestVote
      simp only [if_neg hold, if_neg hnew]
      rfl
  rw [hs]
  have hpr := hmoves.sound hl.history hl.peer
  by_cases hvote : (s.votedFor = none ∨ s.votedFor = some r.candidateId) ∧
      isCandidateLogUpToDate r.lastLogIndex r.lastLogTerm n.log.lastIndex n.log.lastTerm = true
  · rw [if_pos hvote]
    rcases hvote with ⟨hnone | hsame, hup⟩
    · -- a new ballot
      rw [hidx, hterm, hm.log.lastIndex, hm.log.lastTerm, isCandidateLogUpToDate_iff] at hup
      have hgrant := Move.grant (Q := m.quorums) (v := v) (h := h) (p := withState p s) b hb
        (hbv.trans hbc.symm) (hbt.trans hst.symm) hnone hup
      rw [hbc] at hgrant
      refine ⟨_, _, _, rfl, hmoves.tail hgrant, (hgrant.sound hl.history hpr.peer).longer, ?_,
        ⟨rfl, rfl, rfl⟩, hrest, hrole, rfl, fun _ => ⟨hst, _, Set.mem_insert _ _, rfl, rfl, hst⟩⟩
      rintro _ (rfl | hmem)
      · exact Or.inr ⟨rfl, rfl⟩
      · exact Or.inl hmem
    · -- the same vote again
      obtain ⟨b', hb', hbv', hbc', hbt'⟩ := hpr.peer.vote r.candidateId hsame
      refine ⟨_, _, h, rfl, ?_, .refl h, .of_eq rfl, ⟨rfl, rfl, rfl⟩, hrest, hrole, rfl,
        fun _ => ⟨hst, b', hb', hbv', hbc', hbt'.trans hst⟩⟩
      have : withState p { s with votedFor := some r.candidateId } = withState p s := by
        unfold withState
        simp only [hsame]
      rw [this]
      exact hmoves
  · rw [if_neg hvote]
    exact ⟨_, _, h, rfl, hmoves, .refl h, .of_eq rfl, ⟨rfl, rfl, rfl⟩, hrest, hrole, rfl, by simp⟩

theorem handleRequestVote_lawful (hl : Live m v n d p h) {r : RequestVoteRequest}
    (hr : Candidacy h r) (clock : Clock) :
    ∃ a n' s h', RaftNode.handleRequestVote clock r n =
        ⟨.ok a, n', (saveState s).map fun w => ⟨{ n with state := s }, w⟩⟩ ∧
      n'.state = s ∧
      Lawful m v h p d (fun _ => False) n' (saveState s) h' (withState p s) ∧
      h'.decisions = h.decisions ∧ a.term = s.currentTerm ∧
      (a.voteGranted = true → s.currentTerm = r.term ∧ ∃ b ∈ h'.ballots,
        b.voter = v ∧ b.candidate = r.candidateId ∧ b.term = r.term) := by
  obtain ⟨a, s, h', hrun, hmoves, hext, hcasts, ⟨hel, hll, hdec⟩, ⟨hid, hc, ha⟩, hrole, hterm,
    hgranted⟩ := handleRequestVote_moves hl hr
  have hm := hl.mirrors
  have hup : Up m v { n with state := s } (d.writes (saveState s)) (withState p s) h' := by
    refine hl.toUp.setState h' (hl.saved.setState s) hid hc ha hext.acks n.election
      (fun hcand => ?_)
      fun hlead => Or.inl ?_
    · obtain ⟨hsame, ht⟩ := hrole (by simp [hcand])
      have := (hl.votes (hsame.symm.trans hcand)).extend hext.ballots
      exact { this with cast := fun u hu => (this.cast u hu).imp fun _ hx =>
        ⟨hx.1, hx.2.1, hx.2.2.1, hx.2.2.2.trans (hm.term.trans ht.symm)⟩ }
    · obtain ⟨hsame, ht⟩ := hrole (by simp [hlead])
      exact ⟨by rw [hm.role, ← hsame, hlead]; rfl, hm.term.trans ht.symm⟩
  obtain ⟨n', hn', hst, hup'⟩ : ∃ n', (RaftNode.handleRequestVote clock r n =
      ⟨.ok a, n', (saveState s).map fun w => ⟨{ n with state := s }, w⟩⟩) ∧ n'.state = s ∧
      Up m v n' (d.writes (saveState s)) (withState p s) h' := by
    simp only [RaftNode.handleRequestVote, NodeM.bind_run, NodeM.get_run, NodeM.andThen_ok,
      NodeM.behind_nil, hrun, NodeM.lift_ok_run, NodeM.modify_run, RaftNode.persistState,
      NodeM.persist_run, NodeM.ite_run]
    have hdrop : ∀ n' : RaftNode, n'.dropReplication.state = n'.state := by
      intro n'
      obtain ⟨replication, heq⟩ := dropReplication_only n'
      rw [heq]
    split
    · exact ⟨_, rfl, hdrop _, (hup.setTimer _).dropReplication⟩
    · exact ⟨_, rfl, hdrop _, hup.dropReplication⟩
  refine ⟨a, n', s, h', hn', hst, ?_, hdec, hterm, hgranted⟩
  refine .of_single hl le_rfl hmoves (fun t => ?_) (Or.inl hel) hcasts (Keeps.refl _ _) hup'
  rw [hll]
  exact hl.whole t

/-! ## 4. Standing for election -/

/-- The three ways `start_election_if_needed` ends. -/
inductive Stood (n : RaftNode) (clock : Clock) :
    Option RequestVoteRequest → RaftState → ElectionTimer → ElectionTracker → Prop
  | early (ht : n.timer.expired clock.now = false) :
      Stood n clock none n.state n.timer n.election
  | candidate (hq : 1 < n.members.quorumSize) :
      Stood n clock
        (some ⟨n.state.currentTerm + 1, n.state.nodeId, n.log.lastIndex, n.log.lastTerm⟩)
        n.state.becomeCandidate (.reset clock.now clock.timeout) ⟨[n.state.nodeId], true⟩
  | leader (hq : n.members.quorumSize ≤ 1) :
      Stood n clock none
        { n.state.becomeCandidate with role := .leader, leaderId := some n.state.nodeId }
        (.reset clock.now clock.timeout) ⟨[n.state.nodeId], false⟩

theorem startElectionIfNeeded_stood (n : RaftNode) (clock : Clock) :
    ∃ request s timer election, startElectionIfNeeded n.state n.timer n.election n.members
      n.log.lastIndex n.log.lastTerm clock.now clock.timeout =
        .ok (request, s, timer, election) ∧ Stood n clock request s timer election := by
  unfold startElectionIfNeeded ElectionTracker.start ElectionTracker.promoteIfQuorum
  cases ht : n.timer.expired clock.now with
  | false => exact ⟨_, _, _, _, rfl, .early ht⟩
  | true =>
    by_cases hq : 1 < n.members.quorumSize
    · refine ⟨_, _, _, _, ?_, .candidate hq⟩
      simp [hq, RaftState.becomeCandidate, bind, Except.bind, pure, Except.pure]
    · refine ⟨_, _, _, _, ?_, .leader (not_lt.mp hq)⟩
      simp [hq, RaftState.becomeCandidate, RaftState.becomeLeader, bind, Except.bind, pure,
        Except.pure]

/-- Becoming a candidate is a move, with a ballot for oneself. -/
theorem candidate_moves (hl : Live m v n d p h) :
    Moves m.quorums v h p (h.cast v v (n.state.currentTerm + 1) p.log)
      (withState p n.state.becomeCandidate) := by
  have hmove := Move.campaign (Q := m.quorums) (v := v) (h := h) (p := p)
    (n.state.currentTerm + 1) (by rw [hl.mirrors.term]; omega)
  have heq : withState p n.state.becomeCandidate = { p with
      term := n.state.currentTerm + 1, vote := some v, role := .candidate } := by
    unfold withState RaftState.becomeCandidate
    simp only [hl.stateId, NodeRole.role]
  rw [heq]
  exact hmove.moves

/-- The ballot it casts for itself is the request it sends. -/
theorem candidate_candidacy (hl : Live m v n d p h) :
    Candidacy (h.cast v v (n.state.currentTerm + 1) p.log)
      ⟨n.state.currentTerm + 1, n.state.nodeId, n.log.lastIndex, n.log.lastTerm⟩ :=
  ⟨_, Set.mem_insert _ _, hl.stateId.symm, hl.stateId.symm, rfl, hl.mirrors.log.lastIndex,
    hl.mirrors.log.lastTerm⟩

/-- **Winning an election** with the votes counted: a leader with entries of earlier terms only,
in a term that had none. -/
theorem elect_moves (hs : h.Sound m.quorums) (hp : p.Sound h v)
    (hw : ∀ t, Whole (h.leaderLog t)) (hrole : p.role = .candidate) {voters : List NodeId}
    (hv : Votes m v voters p h) (hlen : m.quorumSize ≤ voters.length) :
    ∃ h', Moves m.quorums v h p h' { p with role := .leader } ∧
      (∀ t, Whole (h'.leaderLog t)) ∧
      ((∀ e ∈ h.elections, e.term ≠ p.term) ∧
        ∃ R, h'.elections = ⟨p.term, v, R⟩ :: h.elections) ∧
      (h'.decisions = h.decisions ∧ h'.ballots = h.ballots ∧ h'.acks = h.acks) ∧
      ∀ e ∈ p.log, e.term < p.term := by
  have hR := Members.isQuorum hv.nodup hv.member hlen
  refine ⟨_, (Move.elect _ hrole hR hv.cast).moves, fun t => ?_, ⟨fun e he het => ?_, _, rfl⟩,
    ⟨rfl, rfl, rfl⟩, hp.candidate_stamps hs hrole hR hv.cast⟩
  · by_cases ht : t = p.term
    · subst ht
      change Whole (Function.update h.leaderLog p.term p.log p.term)
      rw [Function.update_self]
      exact Whole.of_traced hw hp.traced
    · change Whole (Function.update h.leaderLog p.term p.log t)
      rw [Function.update_of_ne ht]
      exact hw t
  · exact hp.not_elected hs hrole hR hv.cast ⟨e, he, het⟩

/-- **`tick`, up to where it lets go of the lock.** -/
theorem tickStart_lawful (hl : Live m v n d p h) (clock : Clock) :
    ∃ request n' s ws h', RaftNode.tickStart clock n = ⟨.ok request, n', ws⟩ ∧ n'.state = s ∧
      Lawful m v h p d (fun _ => False) n' (ws.map (·.write)) h' (withState p s) ∧
      h'.decisions = h.decisions ∧ ∀ r, request = some r → r.candidateId = v ∧ Candidacy h' r := by
  obtain ⟨request, s, timer, election, hrun, hstood⟩ := startElectionIfNeeded_stood n clock
  have hm := hl.mirrors
  simp only [RaftNode.tickStart, NodeM.bind_run, NodeM.get_run, NodeM.andThen_ok, NodeM.behind_nil,
    hrun, NodeM.lift_ok_run, NodeM.modify_run, RaftNode.persistState, NodeM.persist_run,
    NodeM.ite_run]
  have hne : n.state.becomeCandidate.currentTerm ≠ n.state.currentTerm := by
    change n.state.currentTerm + 1 ≠ _
    omega
  -- a candidate's own vote
  have hvotes : Votes m v [n.state.nodeId] (withState p n.state.becomeCandidate)
      (h.cast v v (n.state.currentTerm + 1) p.log) := by
    rw [hl.stateId]
    refine ⟨List.nodup_singleton v, by simpa using hl.member, fun u hu => ?_⟩
    obtain rfl := List.mem_singleton.mp hu
    exact ⟨_, Set.mem_insert _ _, rfl, rfl, rfl⟩
  have hmoves := candidate_moves hl
  have hcasts : Casts v h (h.cast v v (n.state.currentTerm + 1) p.log)
      (withState p n.state.becomeCandidate) := by
    rintro _ (rfl | hmem)
    · exact Or.inr ⟨rfl, rfl⟩
    · exact Or.inl hmem
  cases hstood with
  | early ht =>
    -- nothing happens, but that a leader without a table gets one
    obtain ⟨r, hinit, htab, -⟩ := initializeLeaderReplication_run hl.toUp
    have hup := hl.toUp.setReplication r htab
    simp only [ne_eq, not_true_eq_false, or_self, if_false, NodeM.pure_run]
    rw [show ({ n with state := n.state, timer := n.timer, election := n.election } : RaftNode) = n
      from rfl, hinit]
    simp only [NodeM.andThen_ok, NodeM.behind_nil, NodeM.pure_run]
    rw [← hm.withState] at hup
    split
    · exact ⟨none, _, n.state, [], h, rfl, rfl, hm.withState.symm ▸ .quiet hl (hm.withState ▸ hup),
        rfl, by simp⟩
    · exact ⟨none, _, n.state, [], h, rfl, rfl, hm.withState.symm ▸ .quiet hl hl.toUp, rfl, by simp⟩
  | candidate hq =>
    have hup := hl.toUp.setState (h.cast v v (n.state.currentTerm + 1) p.log)
      (hl.saved.setState n.state.becomeCandidate) rfl rfl rfl subset_rfl ⟨[n.state.nodeId], true⟩
      (fun _ => hvotes) (fun hr => nomatch hr)
    rw [if_pos (Or.inl hne)]
    refine ⟨_, _, n.state.becomeCandidate, (saveState n.state.becomeCandidate).map fun w => ⟨_, w⟩,
      h.cast v v (n.state.currentTerm + 1) p.log, rfl, rfl, ?_, rfl, ?_⟩
    · exact .of_single hl le_rfl hmoves hl.whole (Or.inl rfl) hcasts (Keeps.refl _ _)
        (hup.setTimer _)
    · rintro r ⟨⟩
      exact ⟨hl.stateId, candidate_candidacy hl⟩
  | leader hq =>
    -- the only member has won as soon as it stands
    have hpr := hmoves.sound hl.history hl.peer
    obtain ⟨h', helect, hw, hel, ⟨hdec, hball, hack⟩, hstamps⟩ := elect_moves hpr.history hpr.peer
      hl.whole rfl hvotes (by rwa [← hl.members])
    set s : RaftState :=
      { n.state.becomeCandidate with role := .leader, leaderId := some n.state.nodeId } with hs
    have hup := (hl.toUp.setState h' (hl.saved.setState s) rfl rfl rfl hack.ge
      ⟨[n.state.nodeId], false⟩ (fun hr => nomatch hr) (fun _ => Or.inr hstamps)).setTimer
        (.reset clock.now clock.timeout)
    obtain ⟨r, hinit, htab, -⟩ := initializeLeaderReplication_run hup
    rw [if_pos (Or.inl hne), if_pos rfl, hinit]
    refine ⟨none, _, s, (saveState s).map fun w => ⟨_, w⟩, h', rfl, rfl, ?_, hdec, by simp⟩
    exact .of_single hl le_rfl (hmoves.trans helect) hw (Or.inr ⟨hel.1, rfl, hel.2⟩)
      (fun b hmem => hcasts b (hball ▸ hmem)) (Keeps.refl _ _) (hup.setReplication r htab)

/-! ## 5. Counting votes -/

/-- The ways `record_vote` ends for a candidate. -/
inductive Recorded (t : ElectionTracker) (s : RaftState) (m : Members) (peerId : NodeId)
    (response : RequestVoteResponse) : ElectionTracker → RaftState → Prop
  | ignored : Recorded t s m peerId response t s
  | newer (ht : s.currentTerm < response.term) :
      Recorded t s m peerId response { t with active := false } (s.follow response.term none)
  | counted (t' : ElectionTracker) (ht : response.term = s.currentTerm) (hm : peerId ∈ m)
      (hv : t' = if response.voteGranted then t.addVote peerId else t) :
      Recorded t s m peerId response t' s
  | won (t' : ElectionTracker) (ht : response.term = s.currentTerm) (hm : peerId ∈ m)
      (hv : t' = if response.voteGranted then t.addVote peerId else t)
      (hq : m.quorumSize ≤ t'.votesReceived.length) :
      Recorded t s m peerId response { t' with active := false }
        { s with role := .leader, leaderId := some s.nodeId }

theorem recordVote_recorded (t : ElectionTracker) {s : RaftState} (hs : s.role = .candidate)
    (m : Members) (peerId : NodeId) (response : RequestVoteResponse) :
    ∃ won t' s', t.recordVote s m peerId response = .ok (won, t', s') ∧
      Recorded t s m peerId response t' s' := by
  unfold ElectionTracker.recordVote
  cases ha : t.active with
  | false => exact ⟨_, _, _, rfl, .ignored⟩
  | true =>
    simp only [Bool.not_true, Bool.false_eq_true, if_false, hs, ne_eq, not_true_eq_false]
    by_cases hnew : response.term > s.currentTerm
    · simp only [if_pos hnew, RaftState.becomeFollower_ok none hnew.le]
      exact ⟨_, _, _, rfl, .newer hnew⟩
    · rw [if_neg hnew]
      by_cases hold : response.term < s.currentTerm
      · rw [if_pos hold]
        exact ⟨_, _, _, rfl, .ignored⟩
      · rw [if_neg hold]
        by_cases hmem : peerId ∈ m
        · rw [if_neg (not_not.mpr hmem)]
          generalize ht' : (if response.voteGranted then t.addVote peerId else t) = t'
          unfold ElectionTracker.promoteIfQuorum
          by_cases hq : t'.votesReceived.length < m.quorumSize
          · rw [if_pos hq]
            exact ⟨_, _, _, rfl, .counted t' (by omega) hmem ht'.symm⟩
          · simp only [if_neg hq, RaftState.becomeLeader, hs, ne_eq, not_true_eq_false, if_false]
            exact ⟨_, _, _, rfl, .won t' (by omega) hmem ht'.symm (not_lt.mp hq)⟩
        · rw [if_pos hmem]
          exact ⟨_, _, _, rfl, .ignored⟩

/-- A vote granted in the candidate's term joins the votes counted so far. -/
theorem Votes.add {t : ElectionTracker} (hv : Votes m v t.votesReceived p h) {peerId : NodeId}
    (hm : peerId ∈ m) {granted : Bool}
    (hg : granted = true → ∃ b ∈ h.ballots, b.voter = peerId ∧ b.candidate = v ∧ b.term = p.term) :
    Votes m v (if granted then t.addVote peerId else t).votesReceived p h := by
  cases granted with
  | false => exact hv
  | true =>
    simp only [if_true, ElectionTracker.addVote]
    split
    · exact hv
    · rename_i hnot
      refine ⟨List.nodup_cons.mpr ⟨hnot, hv.nodup⟩, fun u hu => ?_, fun u hu => ?_⟩
      · rcases List.mem_cons.mp hu with rfl | hu
        · exact hm
        · exact hv.member u hu
      · rcases List.mem_cons.mp hu with rfl | hu
        · exact hg rfl
        · exact hv.cast u hu

/-- **`tick`, for one answer**: every vote it counts is a ballot. -/
theorem tickResponse_lawful (hl : Live m v n d p h) (peerId : NodeId)
    (request : RequestVoteRequest) (response : RequestVoteResponse)
    (hg : response.voteGranted = true → ∃ b ∈ h.ballots,
      b.voter = peerId ∧ b.candidate = v ∧ b.term = response.term) :
    ∃ n' s ws h', RaftNode.tickResponse peerId request response n = ⟨.ok (), n', ws⟩ ∧
      n'.state = s ∧
      Lawful m v h p d (fun _ => False) n' (ws.map (·.write)) h' (withState p s) ∧
      h'.decisions = h.decisions := by
  have hm := hl.mirrors
  have hquiet : Lawful m v h p d (fun _ => False) n [] h (withState p n.state) := by
    rw [hm.withState]
    exact .quiet hl hl.toUp
  simp only [RaftNode.tickResponse, NodeM.bind_run, NodeM.get_run, NodeM.andThen_ok,
    NodeM.behind_nil, NodeM.ite_run, NodeM.pure_run]
  by_cases hstale : n.state.role ≠ .candidate ∨ n.state.currentTerm ≠ request.term
  · rw [if_pos hstale]
    exact ⟨n, n.state, [], h, rfl, rfl, hquiet, rfl⟩
  have hcand : n.state.role = .candidate := by
    by_contra hne
    exact hstale (Or.inl hne)
  have hpcand : p.role = .candidate := by rw [hm.role, hcand]; rfl
  obtain ⟨won, t', s, hrun, hrec⟩ :=
    recordVote_recorded n.election hcand n.members peerId response
  rw [if_neg hstale, hrun]
  simp only [NodeM.bind_run, NodeM.lift_ok_run, NodeM.andThen_ok, NodeM.behind_nil,
    NodeM.modify_run, RaftNode.persistState, NodeM.get_run, NodeM.persist_run, NodeM.ite_run,
    NodeM.pure_run]
  -- a vote counted is a ballot in the candidate's term
  have hvotes : ∀ t', response.term = n.state.currentTerm → peerId ∈ n.members →
      t' = (if response.voteGranted then n.election.addVote peerId else n.election) →
      Votes m v t'.votesReceived p h := by
    rintro _ ht hmem rfl
    refine (hl.votes hcand).add (hl.members ▸ hmem) fun hgr => ?_
    rw [hm.term, ← ht]
    exact hg hgr
  cases hrec with
  | ignored =>
    simp only [ne_eq, not_true_eq_false, or_self, if_false, hcand, reduceCtorEq]
    exact ⟨n, n.state, [], h, rfl, rfl, hquiet, rfl⟩
  | newer ht =>
    have hup := hl.toUp.setState h
      (hl.saved.setState (n.state.follow response.term none)) rfl rfl rfl subset_rfl
      { n.election with active := false } (fun hr => nomatch hr) (fun hr => nomatch hr)
    simp only [RaftState.follow_currentTerm, RaftState.follow_role, reduceCtorEq, if_false,
      if_true, ne_eq, ht.ne', not_false_eq_true, true_or, NodeM.behind_mk]
    refine ⟨_, n.state.follow response.term none, (saveState _).map fun w => ⟨_, w⟩, h, rfl, rfl,
      ?_, rfl⟩
    exact .of_single hl le_rfl (follow_moves hm ht.le none) hl.whole (Or.inl rfl) (.of_eq rfl)
      (Keeps.refl _ _) (hup.setReplication none (by simp))
  | counted _ ht hmem hv =>
    have hup := hl.toUp.setState h (s := n.state) (show Saved d _ from { hl.saved with }) rfl rfl
      rfl subset_rfl t' (fun _ => hm.withState.symm ▸ hvotes t' ht hmem hv)
      (fun hr => by simp [hcand] at hr)
    simp only [ne_eq, not_true_eq_false, or_self, if_false, hcand, reduceCtorEq]
    refine ⟨_, n.state, [], h, rfl, rfl, ?_, rfl⟩
    rw [hm.withState] at hup ⊢
    exact .quiet hl hup
  | won t' ht hmem hv hq =>
    obtain ⟨h', helect, hw, hel, ⟨hdec, hball, hack⟩, hstamps⟩ := elect_moves hl.history hl.peer
      hl.whole hpcand (hvotes t' ht hmem hv) (by rwa [← hl.members])
    set s : RaftState := { n.state with role := .leader, leaderId := some n.state.nodeId } with hs
    have hp' : withState p s = { p with role := .leader } := by
      rw [← hm.withState]
      rfl
    have hup := hl.toUp.setState h' (s := s)
      (show Saved d _ from { hl.saved with }) rfl rfl rfl hack.ge { t' with active := false }
        (fun hr => nomatch hr)
      (fun _ => Or.inr fun e he => hm.term ▸ hstamps e he)
    obtain ⟨r, hinit, htab, -⟩ := initializeLeaderReplication_run hup
    simp only [hs, ne_eq, not_true_eq_false, or_self, if_false, if_true]
    rw [← hs, hinit]
    refine ⟨_, s, [], h', rfl, rfl, ?_, hdec⟩
    refine .of_single hl (Nat.zero_le _) ?_ hw (Or.inr ⟨?_, rfl, ?_⟩) (.of_eq hball)
      (Keeps.refl _ _) (hup.setReplication r htab)
    · rw [hp']
      exact helect
    · rw [hp']
      exact hel.1
    · rw [hp']
      exact hel.2

/-! ## 6. TimeoutNow -/

/-- **`handle_timeout_now`** moves to the term it is told of, and no further. -/
theorem handleTimeoutNow_lawful (hl : Live m v n d p h) (request : TimeoutNowRequest) :
    ∃ a n' s ws, RaftNode.handleTimeoutNow request n = ⟨.ok a, n', ws⟩ ∧ n'.state = s ∧
      Lawful m v h p d (fun _ => False) n' (ws.map (·.write)) h (withState p s) ∧
      a.term = s.currentTerm := by
  have hm := hl.mirrors
  have hquiet : ∀ timer, Lawful m v h p d (fun _ => False) { n with timer } [] h
      (withState p n.state) := by
    intro timer
    rw [hm.withState]
    exact .quiet hl (hl.toUp.setTimer timer)
  simp only [RaftNode.handleTimeoutNow, NodeM.bind_run, NodeM.get_run, NodeM.andThen_ok,
    NodeM.behind_nil, NodeM.ite_run, NodeM.pure_run]
  by_cases hold : request.term < n.state.currentTerm
  · rw [if_pos hold]
    exact ⟨_, n, n.state, [], rfl, rfl, hquiet n.timer, rfl⟩
  rw [if_neg hold]
  by_cases hnew : request.term > n.state.currentTerm
  · have hup := hl.toUp.follow request.term (some request.leaderId)
    have hlaw : ∀ timer, Lawful m v h p d (fun _ => False)
        { n with state := n.state.follow request.term (some request.leaderId), timer }
        (saveState (n.state.follow request.term (some request.leaderId))) h
        (withState p (n.state.follow request.term (some request.leaderId))) := fun timer =>
      .of_single hl le_rfl (follow_moves hm hnew.le _) hl.whole (Or.inl rfl) (.of_eq rfl)
        (Keeps.refl _ _) (hup.setTimer timer)
    simp only [if_pos hnew, RaftNode.becomeFollower, RaftNode.persistTerm, RaftNode.persistState,
      NodeM.bind_run, NodeM.get_run, NodeM.andThen_ok, NodeM.behind_nil,
      RaftState.becomeFollower_ok (some request.leaderId) hnew.le, NodeM.lift_ok_run,
      NodeM.modify_run, NodeM.ite_run, NodeM.persist_run, RaftState.follow_currentTerm, ne_eq,
      hnew.ne', not_false_eq_true, if_true, NodeM.pure_run]
    split
    · exact ⟨_, _, _, (saveState _).map fun w => ⟨_, w⟩, rfl, rfl, hlaw _, rfl⟩
    · exact ⟨_, _, _, (saveState _).map fun w => ⟨_, w⟩, rfl, rfl, hlaw n.timer, rfl⟩
  · simp only [if_neg hnew, RaftNode.persistTerm, NodeM.bind_run, NodeM.get_run, NodeM.andThen_ok,
      NodeM.behind_nil, NodeM.ite_run, NodeM.pure_run, ne_eq, not_true_eq_false, if_false,
      NodeM.modify_run]
    split
    · exact ⟨_, _, n.state, [], rfl, rfl, hquiet _, rfl⟩
    · exact ⟨_, _, n.state, [], rfl, rfl, hquiet n.timer, rfl⟩

end PyRaftKv
