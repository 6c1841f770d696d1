/-
# Peers that keep a replicated log

A PEER is what one member of the group must remember: its term and vote, its log, how much of
the log it knows to be decided (`commit`) and how much of it it has compacted away (`base`; the
log here is the whole log, compaction only marks a position).  `Move` lists everything a peer may
do to itself and to the history, and `Move.sound` shows that each of these keeps both sound.

Two of the moves are there for crashes.  A peer may take over entries of a leader of a term
LATER than its own, without first adopting that term: that is what is left when a peer dies
between writing its log and writing its term.  So a log may hold entries of terms above the
peer's own, and the argument may not use that it does not: what replaces it is that nobody wins
an election in a term below one that was already won when it stood for election
(`Sound.candidacy_stamps`).
-/
import PyRaftKv.Consensus.History

set_option linter.unusedSectionVars false

namespace Consensus

inductive Role
  | follower
  | candidate
  | leader
deriving DecidableEq

/-- One member's part of the state. -/
structure Peer (ν ε τ : Type*) where
  term : τ
  vote : Option ν
  role : Role
  log : List ε
  commit : Nat
  base : Nat

variable {ν ε τ : Type*} [LinearOrder τ] [Zero τ] [Stamped ε τ]

namespace History

/-- Some leader of a later term does not hold the first `k` entries of term `t`. -/
def Lost (h : History ν ε τ) (t : τ) (k : Nat) : Prop := h.LostBy {u | h.Elected u} t k

/-- The history with one more ballot, of a voter whose log is `l`. -/
def cast (h : History ν ε τ) (v c : ν) (t : τ) (l : List ε) : History ν ε τ :=
  { h with ballots := insert ⟨v, c, t, l, {u | h.Elected u}, h.decisions⟩ h.ballots }

end History

/-- What a peer `v` may do. -/
inductive Move (Q : Quorums ν) (v : ν) (h : History ν ε τ) (p : Peer ν ε τ) :
    History ν ε τ → Peer ν ε τ → Prop
  | stepDown : Move Q v h p h { p with role := .follower }
  | observe (t : τ) (ht : p.term < t) :
      Move Q v h p h { p with term := t, vote := none, role := .follower }
  | campaign (t : τ) (ht : p.term < t) :
      Move Q v h p (h.cast v v t p.log)
        { p with term := t, vote := some v, role := .candidate }
  | grant (b : Ballot ν ε τ) (hb : b ∈ h.ballots) (hself : b.voter = b.candidate)
      (ht : b.term = p.term) (hvote : p.vote = none) (hup : UpToDate b.log p.log) :
      Move Q v h p (h.cast v b.candidate p.term p.log) { p with vote := some b.candidate }
  | elect (R : Set ν) (hrole : p.role = .candidate) (hR : Q.isQuorum R)
      (hvotes : ∀ u ∈ R, ∃ b ∈ h.ballots, b.voter = u ∧ b.candidate = v ∧ b.term = p.term) :
      Move Q v h p
        { h with
          elections := ⟨p.term, v, R⟩ :: h.elections
          leaderLog := Function.update h.leaderLog p.term p.log }
        { p with role := .leader }
  | append (xs : List ε) (hrole : p.role = .leader) (hxs : ∀ x ∈ xs, stamp x = p.term) :
      Move Q v h p { h with leaderLog := Function.update h.leaderLog p.term (p.log ++ xs) }
        { p with log := p.log ++ xs }
  | ack (k : Nat) (ht : h.Elected p.term) (hk : k ≤ (h.leaderLog p.term).length)
      (hheld : h.Holds p.term k p.log) :
      Move Q v h p { h with acks := h.acks ∪ {a | ∃ j ≤ k, a = (v, p.term, j)} } p
  | decide (k : Nat) (R : Set ν) (x : ε) (hrole : p.role = .leader) (hR : Q.isQuorum R)
      (hacks : ∀ u ∈ R, (u, p.term, k) ∈ h.acks) (hk : 0 < k) (hle : p.commit ≤ k)
      (hx : p.log[k - 1]? = some x) (hxt : stamp x = p.term) :
      Move Q v h p { h with decisions := insert ⟨p.term, k, R⟩ h.decisions }
        { p with commit := k }
  | learn (k : Nat) (hrole : p.role = .follower) (hk : k ≤ p.log.length) (hle : p.commit ≤ k)
      (hdec : h.DecidedBy p.term (p.log.take k)) : Move Q v h p h { p with commit := k }
  | compact (b : Nat) (hb : p.base ≤ b) (hle : b ≤ p.commit) :
      Move Q v h p h { p with base := b }
  | replicate (t : τ) (l : List ε) (ht : p.term ≤ t) (hel : h.Elected t)
      (hkeep : ∀ m, m <+: p.log → m <+: h.leaderLog t → m <+: l)
      (hfrom : l <+: p.log ∨ l <+: h.leaderLog t) (hbase : p.log.take p.base <+: l) :
      Move Q v h p h { p with log := l, role := .follower }
  | installKept (t : τ) (k : Nat) (ht : p.term ≤ t) (hel : h.Elected t)
      (hk : k ≤ (h.leaderLog t).length) (hdec : h.Decided ((h.leaderLog t).take k))
      (hb : p.base ≤ k) (hheld : h.Holds t k p.log) :
      Move Q v h p h { p with base := k, commit := max p.commit k, role := .follower }
  | installFresh (t : τ) (k : Nat) (ht : p.term ≤ t) (hel : h.Elected t)
      (hk : k ≤ (h.leaderLog t).length) (hdec : h.Decided ((h.leaderLog t).take k))
      (hb : p.base ≤ k) (hle : p.commit ≤ k) (hnot : ¬ h.Holds t k p.log) :
      Move Q v h p h
        { p with log := (h.leaderLog t).take k, base := k, commit := k, role := .follower }

/-- What a peer keeps, against the history. -/
structure Peer.Sound (h : History ν ε τ) (v : ν) (p : Peer ν ε τ) : Prop where
  term_nonneg : 0 ≤ p.term
  /-- The ballots it cast are of terms it reached, and the one of its own term is its vote. -/
  ballots : ∀ b ∈ h.ballots, b.voter = v → b.term ≤ p.term ∧
    (b.term = p.term → p.vote = some b.candidate)
  vote : ∀ c, p.vote = some c → ∃ b ∈ h.ballots, b.voter = v ∧ b.candidate = c ∧ b.term = p.term
  /-- What it acknowledged it still holds, unless a later leader does not. -/
  acks : ∀ t k, (v, t, k) ∈ h.acks → t ≤ p.term ∧ (h.Holds t k p.log ∨ h.Lost t k)
  traced : h.Traced p.log
  base_le : p.base ≤ p.commit
  commit_le : p.commit ≤ p.log.length
  /-- Its commit point is decided, in a term it has reached unless all of it is compacted. -/
  decided : ∃ u, h.DecidedBy u (p.log.take p.commit) ∧ (u ≤ p.term ∨ p.commit ≤ p.base)
  candidate : p.role = .candidate → ∃ c ∈ h.ballots, c.voter = v ∧ c.candidate = v ∧
    c.term = p.term ∧ c.log = p.log ∧ (∀ e ∈ h.elections, e.term = p.term → e.leader ≠ v) ∧
    (p.log.take p.commit = [] ∨
      ∃ d ∈ c.decided, p.log.take p.commit <+: (h.leaderLog d.term).take d.index)
  leader : p.role = .leader → ∃ e ∈ h.elections, e.term = p.term ∧ e.leader = v ∧
    p.log = h.leaderLog p.term ∧ h.DecidedBy p.term (p.log.take p.commit)

variable {Q : Quorums ν} {v : ν} {h h' : History ν ε τ} {p p' : Peer ν ε τ}

/-! ## 1. What a longer history does not change -/

theorem History.Extends.lost (hx : h.Extends h') (hs : h.Sound Q) {t : τ} {k : Nat}
    (ht : h.Elected t) (hk : k ≤ (h.leaderLog t).length) (hl : h.Lost t k) : h'.Lost t k := by
  obtain ⟨u, hu, htu, hnot⟩ := hx.lostBy hs (fun _ hu => hu) ht hk hl
  exact ⟨u, hx.elected hu, htu, hnot⟩

/-- What a peer keeps does not depend on what others add to the history. -/
theorem Peer.Sound.extend (hp : p.Sound h v) (hs : h.Sound Q) (hx : h.Extends h')
    (hb : ∀ b ∈ h'.ballots, b.voter = v → b ∈ h.ballots)
    (ha : ∀ t k, (v, t, k) ∈ h'.acks → (v, t, k) ∈ h.acks)
    (he : ∀ e ∈ h'.elections, e ∈ h.elections ∨ e.leader ≠ v)
    (hl : p.role = .leader → h'.leaderLog p.term = h.leaderLog p.term) : p.Sound h' v where
  term_nonneg := hp.term_nonneg
  ballots b hb' hv := hp.ballots b (hb b hb' hv) hv
  vote c hc := by
    obtain ⟨b, hb, hrest⟩ := hp.vote c hc
    exact ⟨b, hx.ballots hb, hrest⟩
  acks t k hak := by
    obtain ⟨htk, hkeep⟩ := hp.acks t k (ha t k hak)
    obtain ⟨hel, hlen⟩ := hs.ack_elected v t k (ha t k hak)
    refine ⟨htk, hkeep.imp (fun hh => ?_) fun hh => ?_⟩
    · rwa [hx.holds_iff hel hlen]
    · exact hx.lost hs hel hlen hh
  traced := hx.traced hp.traced
  base_le := hp.base_le
  commit_le := hp.commit_le
  decided := by
    obtain ⟨u, hu, hle⟩ := hp.decided
    exact ⟨u, hx.decidedBy hs hu, hle⟩
  candidate hr := by
    obtain ⟨c, hc, hcv, hcc, hct, hcl, hne, hev⟩ := hp.candidate hr
    refine ⟨c, hx.ballots hc, hcv, hcc, hct, hcl, fun e hmem hte => ?_, hev.imp id ?_⟩
    · exact (he e hmem).elim (fun hm => hne e hm hte) id
    · rintro ⟨d, hd, hpre⟩
      obtain ⟨hel, hlen⟩ := hs.decision_elected (hs.ballot_decided c hc hd)
      exact ⟨d, hd, by rwa [hx.take_leader hel hlen]⟩
  leader hr := by
    obtain ⟨e, hmem, het, hev, hlog, hdec⟩ := hp.leader hr
    exact ⟨e, hx.elections.subset hmem, het, hev, hlog.trans (hl hr).symm, hx.decidedBy hs hdec⟩

/-! ## 2. Casting a ballot -/

theorem History.extends_cast (c : ν) (t : τ) (l : List ε) : h.Extends (h.cast v c t l) :=
  ⟨List.suffix_refl _, Set.subset_insert _ _, subset_rfl, subset_rfl,
    fun _ _ => ⟨[], (List.append_nil _).symm, by simp⟩⟩

/-- What a peer holds of what it acknowledged, as a ballot cast by it records it. -/
theorem Peer.Sound.quorum_term (hp : p.Sound h v) (hs : h.Sound Q) {d : Decision ν τ}
    (hd : d ∈ h.decisions) (hv : v ∈ d.quorum) : d.term ≤ p.term :=
  (hp.acks _ _ ((hs.decision_quorum d hd).2 v hv)).1

theorem Peer.Sound.voter_term (hp : p.Sound h v) (hs : h.Sound Q) {e : Election ν τ}
    (he : e ∈ h.elections) (hv : v ∈ e.quorum) :
    e.term ≤ p.term ∧ (e.term = p.term → p.vote = some e.leader) := by
  obtain ⟨es, hes⟩ := suffix_of_mem he
  obtain ⟨b, hb, hbv, hbc, hbt, -⟩ := (hs.election_quorum e es hes).2 v hv
  have := hp.ballots b hb hbv
  rwa [hbt, hbc] at this

/-- A ballot for a candidacy that the voter has not yet passed keeps the history sound. -/
theorem History.Sound.cast (hs : h.Sound Q) (hp : p.Sound h v) {c : ν} {t : τ}
    (hpos : 0 < t) (hle : p.term ≤ t) (hnew : ∀ b ∈ h.ballots, b.voter = v → b.term ≠ t)
    (hcand : ∃ b ∈ (h.cast v c t p.log).ballots, b.voter = c ∧ b.candidate = c ∧ b.term = t ∧
      UpToDate b.log p.log ∧ (∀ u ∈ b.elected, h.Elected u) ∧ b.decided ⊆ h.decisions ∧
      ∀ e ∈ h.elections, e.term ∈ b.elected → v ∈ e.quorum → e.term < t) :
    (h.cast v c t p.log).Sound Q := by
  have hx : h.Extends (h.cast v c t p.log) := History.extends_cast c t p.log
  constructor
  case ballot_unique =>
    rintro b (rfl | hb) b' (rfl | hb') hvv htt
    · rfl
    · exact absurd htt.symm (hnew b' hb' hvv.symm)
    · exact absurd htt (hnew b hb hvv)
    · exact hs.ballot_unique b hb b' hb' hvv htt
  case ballot_pos =>
    rintro b (rfl | hb)
    · exact hpos
    · exact hs.ballot_pos b hb
  case ballot_elected =>
    rintro b (rfl | hb) u hu
    · exact hu
    · exact hs.ballot_elected b hb u hu
  case ballot_traced =>
    rintro b (rfl | hb)
    · exact hp.traced
    · exact hs.ballot_traced b hb
  case ballot_stamps =>
    rintro b (rfl | hb) x hxm
    · obtain ⟨i, hi⟩ := List.mem_iff_getElem?.mp hxm
      exact (hp.traced _ _ (take_snoc_isPrefix hi)).1
    · exact hs.ballot_stamps b hb x hxm
  case ballot_candidacy =>
    rintro b (rfl | hb)
    · obtain ⟨b, hb, hbv, hbc, hbt, hup, hbe, hbd, hlt⟩ := hcand
      exact ⟨b, hb, hbv, hbc, hbt, hup, hbe,
        fun d hd hv => (hp.quorum_term hs (hbd hd) hv).trans hle, hlt⟩
    · obtain ⟨c', hc', hrest⟩ := hs.ballot_candidacy b hb
      exact ⟨c', Set.mem_insert_of_mem _ hc', hrest⟩
  case ballot_acked =>
    rintro b (rfl | hb) u k hak hlt
    · exact (hp.acks u k hak).2
    · exact hs.ballot_acked b hb u k hak hlt
  case election_quorum =>
    intro e es hes
    obtain ⟨hq, hv⟩ := hs.election_quorum e es hes
    refine ⟨hq, fun u hu => ?_⟩
    obtain ⟨b, hb, hrest⟩ := hv u hu
    exact ⟨b, Set.mem_insert_of_mem _ hb, hrest⟩
  case leader_log =>
    intro e he
    obtain ⟨b, hb, hrest⟩ := hs.leader_log e he
    exact ⟨b, Set.mem_insert_of_mem _ hb, hrest⟩
  case ballot_decided =>
    rintro b (rfl | hb)
    · exact subset_rfl
    · exact hs.ballot_decided b hb
  all_goals first
    | exact hs.election_unique | exact hs.unelected | exact hs.ack_elected
    | exact hs.ack_below | exact hs.decision_quorum | exact hs.decision_stamp

/-- What a move leaves sound: the history, the peer that moved, and every other. -/
structure Progress (Q : Quorums ν) (v : ν) (h h' : History ν ε τ) (p' : Peer ν ε τ) : Prop where
  history : h'.Sound Q
  peer : p'.Sound h' v
  longer : h.Extends h'
  others : ∀ u, u ≠ v → ∀ q : Peer ν ε τ, q.Sound h u → q.Sound h' u

theorem Progress.ofPeer (hs : h.Sound Q) (hp' : p'.Sound h v) : Progress Q v h h p' :=
  ⟨hs, hp', History.Extends.refl h, fun _ _ _ hq => hq⟩

/-- Casting a ballot and moving to its term with it as the vote. -/
theorem Progress.ofCast (hs : h.Sound Q) (hp : p.Sound h v) {c : ν} {t : τ}
    (hle : p.term ≤ t) (hsound : (h.cast v c t p.log).Sound Q) {r : Role}
    (hcand : r = .candidate → p.term < t ∧ c = v) (hlead : r ≠ .leader) :
    Progress Q v h (h.cast v c t p.log) { p with term := t, vote := some c, role := r } where
  history := hsound
  longer := History.extends_cast c t p.log
  others u hu q hq := by
    refine hq.extend hs (History.extends_cast c t p.log) ?_ (fun _ _ => id) (fun _ => Or.inl)
      (fun _ => rfl)
    rintro b (rfl | hb) hbv
    · exact absurd hbv.symm hu
    · exact hb
  peer := by
    have hx := History.extends_cast (h := h) (v := v) c t p.log
    refine ⟨hp.term_nonneg.trans hle, ?_, ?_, ?_, hx.traced hp.traced, hp.base_le, hp.commit_le,
      ?_, ?_, fun hr => absurd hr hlead⟩
    · rintro b (rfl | hb) hbv
      · exact ⟨le_rfl, fun _ => rfl⟩
      · refine ⟨(hp.ballots b hb hbv).1.trans hle, fun hbt => congrArg some ?_⟩
        have := hsound.ballot_unique ⟨v, c, t, p.log, _, _⟩ (Set.mem_insert _ _) b
          (Set.mem_insert_of_mem _ hb) hbv.symm hbt.symm
        rw [← this]
    · rintro c' hc'
      obtain rfl : c = c' := Option.some.inj hc'
      exact ⟨_, Set.mem_insert _ _, rfl, rfl, rfl⟩
    · intro u k hak
      obtain ⟨hlt, hkeep⟩ := hp.acks u k hak
      exact ⟨hlt.trans hle, hkeep⟩
    · obtain ⟨u, hu, hub⟩ := hp.decided
      exact ⟨u, hx.decidedBy hs hu, hub.imp (fun hut => hut.trans hle) id⟩
    · intro hr
      obtain ⟨hlt, rfl⟩ := hcand hr
      refine ⟨_, Set.mem_insert _ _, rfl, rfl, rfl, rfl, fun e he het hev => ?_, ?_⟩
      · -- an earlier election of the same peer was in a term it had reached
        obtain ⟨b, hb, -, hbv, -, hbt, -⟩ := hs.leader_log e he
        have := (hp.ballots b hb (hbv.trans hev)).1
        rw [hbt, het] at this
        exact absurd this (not_le.mpr hlt)
      · obtain ⟨u, hu | ⟨d, hd, -, hpre⟩, -⟩ := hp.decided
        · exact Or.inl hu
        · exact Or.inr ⟨d, hd, hpre⟩

theorem Move.campaign_progress (hs : h.Sound Q) (hp : p.Sound h v) {t : τ} (ht : p.term < t) :
    Progress Q v h (h.cast v v t p.log)
      { p with term := t, vote := some v, role := .candidate } := by
  refine Progress.ofCast hs hp ht.le (hs.cast hp (hp.term_nonneg.trans_lt ht) ht.le ?_ ?_)
    (fun _ => ⟨ht, rfl⟩) (by simp)
  · exact fun b hb hbv hbt => absurd (hbt ▸ (hp.ballots b hb hbv).1) (not_le.mpr ht)
  · refine ⟨_, Set.mem_insert _ _, rfl, rfl, rfl, Or.inr ⟨rfl, le_rfl⟩, fun _ hu => hu,
      subset_rfl, fun e he _ hv => ?_⟩
    exact (hp.voter_term hs he hv).1.trans_lt ht

theorem Move.grant_progress (hs : h.Sound Q) (hp : p.Sound h v) {b : Ballot ν ε τ}
    (hb : b ∈ h.ballots) (hself : b.voter = b.candidate) (ht : b.term = p.term)
    (hvote : p.vote = none) (hup : UpToDate b.log p.log) :
    Progress Q v h (h.cast v b.candidate p.term p.log) { p with vote := some b.candidate } := by
  -- a peer without a vote is neither candidate nor leader in its term
  have hcand : p.role ≠ .candidate := by
    intro hr
    obtain ⟨c, hc, hcv, -, hct, -⟩ := hp.candidate hr
    have := (hp.ballots c hc hcv).2 hct
    rw [hvote] at this
    cases this
  have hlead : p.role ≠ .leader := by
    intro hr
    obtain ⟨e, he, het, hev, -⟩ := hp.leader hr
    obtain ⟨c, hc, -, hcv, -, hct, -⟩ := hs.leader_log e he
    have := (hp.ballots c hc (hcv.trans hev)).2 (hct.trans het)
    rw [hvote] at this
    cases this
  refine Progress.ofCast hs hp le_rfl (hs.cast hp (ht ▸ hs.ballot_pos b hb) le_rfl ?_ ?_)
    (fun hr => absurd hr hcand) hlead
  · intro b' hb' hbv hbt
    have := (hp.ballots b' hb' hbv).2 hbt
    rw [hvote] at this
    cases this
  · refine ⟨b, Set.mem_insert_of_mem _ hb, hself, rfl, ht, hup, hs.ballot_elected b hb,
      hs.ballot_decided b hb, fun e he _ hv => ?_⟩
    obtain ⟨hle, heq⟩ := hp.voter_term hs he hv
    refine hle.lt_of_ne fun hte => ?_
    have := heq hte
    rw [hvote] at this
    cases this

/-! ## 3. Winning an election -/

/-- **Nobody wins below a term won before it stood.**  A candidate with a quorum of ballots has
only entries of earlier terms, and knew of decisions of terms up to its own only. -/
theorem History.Sound.candidacy_stamps (hs : h.Sound Q) {c : Ballot ν ε τ} (hc : c ∈ h.ballots)
    (hself : c.voter = c.candidate) {R : Set ν} (hR : Q.isQuorum R)
    (hvotes : ∀ u ∈ R, ∃ b ∈ h.ballots, b.voter = u ∧ b.candidate = c.candidate ∧
      b.term = c.term) :
    (∀ x ∈ c.log, stamp x < c.term) ∧ ∀ d ∈ c.decided, d.term ≤ c.term := by
  have hcommon : ∀ b ∈ h.ballots, b.candidate = c.candidate → b.term = c.term →
      (∀ d ∈ c.decided, b.voter ∈ d.quorum → d.term ≤ b.term) ∧
      ∀ e ∈ h.elections, e.term ∈ c.elected → b.voter ∈ e.quorum → e.term < b.term := by
    intro b hb hbc hbt
    obtain ⟨c', hc', hcv, -, hct, -, -, hd, he⟩ := hs.ballot_candidacy b hb
    obtain rfl : c' = c := hs.ballot_unique c' hc' c hc (by rw [hcv, hbc, hself]) (by rw [hct, hbt])
    exact ⟨hd, he⟩
  constructor
  · intro x hx
    obtain ⟨e, he, heq⟩ := hs.ballot_elected c hc _ (hs.ballot_stamps c hc x hx)
    obtain ⟨es, hes⟩ := suffix_of_mem he
    obtain ⟨u, huR, hue⟩ := Q.meet hR (hs.election_quorum e es hes).1
    obtain ⟨b, hb, rfl, hbc, hbt⟩ := hvotes u huR
    rw [← heq, ← hbt]
    exact (hcommon b hb hbc hbt).2 e he (heq ▸ hs.ballot_stamps c hc x hx) hue
  · intro d hd
    obtain ⟨u, huR, hud⟩ := Q.meet hR (hs.decision_quorum d (hs.ballot_decided c hc hd)).1
    obtain ⟨b, hb, rfl, hbc, hbt⟩ := hvotes u huR
    rw [← hbt]
    exact (hcommon b hb hbc hbt).1 d hd hud

/-- The term a candidate has the votes of has no leader yet: the quorum of an earlier winner would
have voted twice. -/
theorem Peer.Sound.not_elected (hs : h.Sound Q) (hp : p.Sound h v) {R : Set ν}
    (hrole : p.role = .candidate) (hR : Q.isQuorum R)
    (hvotes : ∀ u ∈ R, ∃ b ∈ h.ballots, b.voter = u ∧ b.candidate = v ∧ b.term = p.term) :
    ¬ h.Elected p.term := by
  obtain ⟨c, -, -, -, -, -, hne, -⟩ := hp.candidate hrole
  rintro ⟨e, he, het⟩
  obtain ⟨es, hes⟩ := suffix_of_mem he
  obtain ⟨hq, hb⟩ := hs.election_quorum e es hes
  obtain ⟨u, huR, hue⟩ := Q.meet hR hq
  obtain ⟨b, hbm, hbv, hbc, hbt⟩ := hvotes u huR
  obtain ⟨b', hbm', hbv', hbc', hbt', -⟩ := hb u hue
  obtain rfl := hs.ballot_unique b hbm b' hbm' (hbv.trans hbv'.symm) (by rw [hbt, hbt', het])
  exact hne e he het (hbc'.symm.trans hbc)

/-- A new leader starts with entries of earlier terms only. -/
theorem Peer.Sound.candidate_stamps (hs : h.Sound Q) (hp : p.Sound h v) {R : Set ν}
    (hrole : p.role = .candidate) (hR : Q.isQuorum R)
    (hvotes : ∀ u ∈ R, ∃ b ∈ h.ballots, b.voter = u ∧ b.candidate = v ∧ b.term = p.term) :
    ∀ x ∈ p.log, stamp x < p.term := by
  obtain ⟨c, hc, hcv, hcc, hct, hcl, -⟩ := hp.candidate hrole
  have := (hs.candidacy_stamps hc (hcv.trans hcc.symm) hR
    (fun u hu => by rw [hcc, hct]; exact hvotes u hu)).1
  rwa [hcl, hct] at this

theorem Move.elect_progress (hs : h.Sound Q) (hp : p.Sound h v) {R : Set ν}
    (hrole : p.role = .candidate) (hR : Q.isQuorum R)
    (hvotes : ∀ u ∈ R, ∃ b ∈ h.ballots, b.voter = u ∧ b.candidate = v ∧ b.term = p.term) :
    Progress Q v h
      { h with
        elections := ⟨p.term, v, R⟩ :: h.elections
        leaderLog := Function.update h.leaderLog p.term p.log }
      { p with role := .leader } := by
  obtain ⟨c, hc, hcv, hcc, hct, hcl, -, hev⟩ := hp.candidate hrole
  have hnot := hp.not_elected hs hrole hR hvotes
  have hstamps := hp.candidate_stamps hs hrole hR hvotes
  have hdecided := (hs.candidacy_stamps hc (hcv.trans hcc.symm) hR
    (fun u hu => by rw [hcc, hct]; exact hvotes u hu)).2
  have hupd : ∀ t, h.Elected t →
      Function.update h.leaderLog p.term p.log t = h.leaderLog t := by
    intro t ht
    refine Function.update_of_ne ?_ _ _
    rintro rfl
    exact hnot ht
  set h' : History ν ε τ := { h with
    elections := ⟨p.term, v, R⟩ :: h.elections
    leaderLog := Function.update h.leaderLog p.term p.log } with hh'
  have hx : h.Extends h' := ⟨List.suffix_cons _ _, subset_rfl, subset_rfl, subset_rfl,
    fun t ht => ⟨[], by rw [List.append_nil]; exact hupd t ht, by simp⟩⟩
  have hnow : h'.leaderLog p.term = p.log := Function.update_self _ _ _
  have hown : ∃ e ∈ h'.elections, e.term = p.term ∧ e.leader = v :=
    ⟨⟨p.term, v, R⟩, List.mem_cons_self, rfl, rfl⟩
  refine ⟨?_, ?_, hx, ?_⟩
  · constructor
    case ballot_traced => exact fun b hb => hx.traced (hs.ballot_traced b hb)
    case ballot_elected => exact fun b hb t ht => hx.elected (hs.ballot_elected b hb t ht)
    case ballot_candidacy =>
      intro b hb
      obtain ⟨c', hc', h1, h2, h3, h4, h5, h6, h7⟩ := hs.ballot_candidacy b hb
      refine ⟨c', hc', h1, h2, h3, h4, h5, h6, fun e he het => ?_⟩
      rcases List.mem_cons.mp he with rfl | he
      · exact absurd (hs.ballot_elected c' hc' _ het) hnot
      · exact h7 e he het
    case ballot_acked =>
      intro b hb t k hak hlt
      obtain ⟨hel, hlen⟩ := hs.ack_elected _ t k hak
      refine (hs.ballot_acked b hb t k hak hlt).imp (fun hh => ?_) fun hh => ?_
      · rwa [hx.holds_iff hel hlen]
      · exact hx.lostBy hs (hs.ballot_elected b hb) hel hlen hh
    case election_quorum =>
      intro e es hes
      rcases List.suffix_cons_iff.mp hes with heq | hsuf
      · obtain ⟨rfl, rfl⟩ := List.cons.inj heq
        refine ⟨hR, fun u hu => ?_⟩
        obtain ⟨b, hb, hbv, hbc, hbt⟩ := hvotes u hu
        exact ⟨b, hb, hbv, hbc, hbt, hs.ballot_elected b hb⟩
      · exact hs.election_quorum e es hsuf
    case election_unique =>
      intro e he e' he' htt
      rcases List.mem_cons.mp he with rfl | he <;> rcases List.mem_cons.mp he' with rfl | he'
      · rfl
      · exact absurd ⟨e', he', htt.symm⟩ hnot
      · exact absurd ⟨e, he, htt⟩ hnot
      · exact hs.election_unique e he e' he' htt
    case leader_log =>
      intro e he
      rcases List.mem_cons.mp he with rfl | he
      · refine ⟨c, hc, [], hcv, hcc, hct, ?_, by rw [hcl]; exact hstamps, by simp⟩
        rw [hcl, List.append_nil]
        exact hnow
      · obtain ⟨c', hc', own, h1, h2, h3, h4, h5, h6⟩ := hs.leader_log e he
        exact ⟨c', hc', own, h1, h2, h3, (hupd _ ⟨e, he, rfl⟩).trans h4, h5, h6⟩
    case unelected =>
      intro t ht
      have hne : t ≠ p.term := by
        rintro rfl
        exact ht ⟨_, List.mem_cons_self, rfl⟩
      rw [hh']
      refine (Function.update_of_ne hne _ _).trans (hs.unelected t fun ht' => ht (hx.elected ht'))
    case ack_elected =>
      intro u t k hak
      obtain ⟨hel, hlen⟩ := hs.ack_elected u t k hak
      exact ⟨hx.elected hel, hlen.trans (hx.leader_isPrefix hel).length_le⟩
    case decision_stamp =>
      intro d hd
      obtain ⟨x, hk, hxk, hxt⟩ := hs.decision_stamp d hd
      exact ⟨x, hk, (congrArg (·[d.index - 1]?) (hupd _ (hs.decision_elected hd).1)).trans hxk, hxt⟩
    all_goals first
      | exact hs.ballot_unique | exact hs.ballot_pos | exact hs.ballot_stamps | exact hs.ack_below
      | exact hs.decision_quorum | exact hs.ballot_decided
  · obtain ⟨e, he, het, hel⟩ := hown
    refine ⟨hp.term_nonneg, hp.ballots, hp.vote, ?_, hx.traced hp.traced, hp.base_le,
      hp.commit_le, ?_, by simp, fun _ => ⟨e, he, het, hel, hnow.symm, ?_⟩⟩
    · intro t k hak
      obtain ⟨helt, hlen⟩ := hs.ack_elected v t k hak
      obtain ⟨htk, hkeep⟩ := hp.acks t k hak
      refine ⟨htk, hkeep.imp (fun hh => ?_) (hx.lost hs helt hlen)⟩
      rwa [hx.holds_iff helt hlen]
    · obtain ⟨u, hu, hle⟩ := hp.decided
      exact ⟨u, hx.decidedBy hs hu, hle⟩
    · rcases hev with hnil | ⟨d, hd, hpre⟩
      · exact Or.inl hnil
      · refine hx.decidedBy hs (Or.inr ⟨d, hs.ballot_decided c hc hd, ?_, hpre⟩)
        exact (hdecided d hd).trans hct.le
  · intro u hu q hq
    refine hq.extend hs hx (fun b hb _ => hb) (fun _ _ => id) ?_ ?_
    · intro e he
      rcases List.mem_cons.mp he with rfl | he
      · exact Or.inr hu.symm
      · exact Or.inl he
    · intro hr
      obtain ⟨e, he, het, -⟩ := hq.leader hr
      exact hupd _ ⟨e, he, het⟩

/-! ## 4. Leading -/

theorem Move.append_progress (hs : h.Sound Q) (hp : p.Sound h v) {xs : List ε}
    (hrole : p.role = .leader) (hxs : ∀ x ∈ xs, stamp x = p.term) :
    Progress Q v h { h with leaderLog := Function.update h.leaderLog p.term (p.log ++ xs) }
      { p with log := p.log ++ xs } := by
  obtain ⟨e, he, het, hev, hlog, hdec⟩ := hp.leader hrole
  set h' : History ν ε τ :=
    { h with leaderLog := Function.update h.leaderLog p.term (p.log ++ xs) } with hh'
  have hnow : h'.leaderLog p.term = p.log ++ xs := Function.update_self _ _ _
  have hold : ∀ t, t ≠ p.term → h'.leaderLog t = h.leaderLog t :=
    fun t ht => Function.update_of_ne ht _ _
  have hx : h.Extends h' := by
    refine ⟨List.suffix_refl _, subset_rfl, subset_rfl, subset_rfl, fun t _ => ?_⟩
    by_cases htp : t = p.term
    · subst htp
      exact ⟨xs, by rw [hnow, hlog], hxs⟩
    · exact ⟨[], by rw [hold t htp, List.append_nil], by simp⟩
  have hsound : h'.Sound Q := by
    constructor
    case ballot_traced => exact fun b hb => hx.traced (hs.ballot_traced b hb)
    case ballot_acked =>
      intro b hb t k hak hlt
      obtain ⟨hel, hlen⟩ := hs.ack_elected _ t k hak
      refine (hs.ballot_acked b hb t k hak hlt).imp (fun hh => ?_) fun hh => ?_
      · rwa [hx.holds_iff hel hlen]
      · exact hx.lostBy hs (hs.ballot_elected b hb) hel hlen hh
    case leader_log =>
      intro e' he'
      obtain ⟨c, hc, own, h1, h2, h3, h4, h5, h6⟩ := hs.leader_log e' he'
      obtain ⟨own', hown', hst⟩ := hx.leaderLog e'.term ⟨e', he', rfl⟩
      refine ⟨c, hc, own ++ own', h1, h2, h3, by rw [hown', h4, List.append_assoc], h5, ?_⟩
      intro x hxm
      rcases List.mem_append.mp hxm with hm | hm
      · exact h6 x hm
      · exact hst x hm
    case unelected =>
      intro t ht
      rw [hold t (fun heq => ht ⟨e, he, het.trans heq.symm⟩)]
      exact hs.unelected t ht
    case ack_elected =>
      intro u t k hak
      obtain ⟨hel, hlen⟩ := hs.ack_elected u t k hak
      exact ⟨hel, hlen.trans (hx.leader_isPrefix hel).length_le⟩
    case decision_stamp =>
      intro d hd
      obtain ⟨x, hk, hxk, hxt⟩ := hs.decision_stamp d hd
      obtain ⟨hel, hlen⟩ := hs.decision_elected hd
      exact ⟨x, hk, by rw [getElem?_of_isPrefix (hx.leader_isPrefix hel) (by omega), hxk], hxt⟩
    all_goals first
      | exact hs.ballot_unique | exact hs.ballot_pos | exact hs.ballot_stamps | exact hs.ack_below
      | exact hs.decision_quorum | exact hs.ballot_decided | exact hs.ballot_elected
      | exact hs.ballot_candidacy | exact hs.election_quorum | exact hs.election_unique
  have hpre : p.log <+: p.log ++ xs := List.prefix_append _ _
  have htake : (p.log ++ xs).take p.commit = p.log.take p.commit :=
    take_eq_of_isPrefix hpre hp.commit_le
  refine ⟨hsound, ?_, hx, ?_⟩
  · refine ⟨hp.term_nonneg, hp.ballots, hp.vote, ?_, ?_, hp.base_le,
      hp.commit_le.trans hpre.length_le, ?_, by simp [hrole],
        fun _ => ⟨e, he, het, hev, hnow.symm, ?_⟩⟩
    · intro t k hak
      obtain ⟨hel, hlen⟩ := hs.ack_elected v t k hak
      obtain ⟨htk, hkeep⟩ := hp.acks t k hak
      refine ⟨htk, hkeep.imp (fun hh => ?_) (hx.lost hs hel hlen)⟩
      rw [hx.holds_iff hel hlen]
      exact hh.trans hpre
    · exact hnow ▸ hsound.leader_traced p.term
    · obtain ⟨u, hu, hle⟩ := hp.decided
      exact ⟨u, by rw [htake]; exact hx.decidedBy hs hu, hle⟩
    · rw [htake]
      exact hx.decidedBy hs hdec
  · intro u hu q hq
    refine hq.extend hs hx (fun b hb _ => hb) (fun _ _ => id) (fun _ => Or.inl) fun hr => ?_
    -- another leader leads in another term
    refine hold _ fun heq => hu ?_
    obtain ⟨e', he', het', hev', -⟩ := hq.leader hr
    obtain rfl := hs.election_unique e he e' he' (by rw [het, het', heq])
    exact hev'.symm.trans hev

theorem Move.ack_progress (hs : h.Sound Q) (hp : p.Sound h v) {k : Nat}
    (ht : h.Elected p.term) (hk : k ≤ (h.leaderLog p.term).length)
    (hheld : h.Holds p.term k p.log) :
    Progress Q v h { h with acks := h.acks ∪ {a | ∃ j ≤ k, a = (v, p.term, j)} } p := by
  set h' : History ν ε τ := { h with acks := h.acks ∪ {a | ∃ j ≤ k, a = (v, p.term, j)} } with hh'
  have hx : h.Extends h' := ⟨List.suffix_refl _, subset_rfl, Set.subset_union_left, subset_rfl,
    fun _ _ => ⟨[], (List.append_nil _).symm, by simp⟩⟩
  have hcases : ∀ u t j, (u, t, j) ∈ h'.acks →
      (u, t, j) ∈ h.acks ∨ u = v ∧ t = p.term ∧ j ≤ k := by
    rintro u t j (hak | ⟨i, hi, heq⟩)
    · exact Or.inl hak
    · obtain ⟨rfl, rfl, rfl⟩ : u = v ∧ t = p.term ∧ j = i := by simpa using heq
      exact Or.inr ⟨rfl, rfl, hi⟩
  refine ⟨?_, ?_, hx, ?_⟩
  · constructor
    case ballot_acked =>
      intro b hb t j hak hlt
      rcases hcases _ t j hak with hak | ⟨hbv, rfl, -⟩
      · exact hs.ballot_acked b hb t j hak hlt
      · exact absurd (hp.ballots b hb hbv).1 (not_le.mpr hlt)
    case ack_elected =>
      intro u t j hak
      rcases hcases u t j hak with hak | ⟨-, rfl, hj⟩
      · exact hs.ack_elected u t j hak
      · exact ⟨ht, hj.trans hk⟩
    case ack_below =>
      intro u t i j hak hji
      rcases hcases u t i hak with hak | ⟨rfl, rfl, hi⟩
      · exact Or.inl (hs.ack_below u t i j hak hji)
      · exact Or.inr ⟨j, hji.trans hi, rfl⟩
    case decision_quorum =>
      intro d hd
      obtain ⟨hq, hacks⟩ := hs.decision_quorum d hd
      exact ⟨hq, fun u hu => Or.inl (hacks u hu)⟩
    all_goals first
      | exact hs.ballot_unique | exact hs.ballot_pos | exact hs.ballot_stamps
      | exact hs.decision_stamp | exact hs.ballot_decided | exact hs.ballot_elected
      | exact hs.ballot_candidacy | exact hs.election_quorum | exact hs.election_unique
      | exact hs.ballot_traced | exact hs.leader_log | exact hs.unelected
  · refine { hp with acks := ?_ }
    intro t j hak
    rcases hcases v t j hak with hak | ⟨-, rfl, hj⟩
    · exact hp.acks t j hak
    · refine ⟨le_rfl, Or.inl ?_⟩
      have hjk : (h.leaderLog p.term).take j <+: (h.leaderLog p.term).take k :=
        List.take_prefix_take_left hj
      exact hjk.trans hheld
  · intro u hu q hq
    refine hq.extend hs hx (fun b hb _ => hb) ?_ (fun _ => Or.inl) (fun _ => rfl)
    intro t j hak
    exact (hcases u t j hak).resolve_right fun hh => hu hh.1

theorem Move.decide_progress (hs : h.Sound Q) (hp : p.Sound h v) {k : Nat} {R : Set ν} {x : ε}
    (hrole : p.role = .leader) (hR : Q.isQuorum R)
    (hacks : ∀ u ∈ R, (u, p.term, k) ∈ h.acks) (hk : 0 < k) (hle : p.commit ≤ k)
    (hx : p.log[k - 1]? = some x) (hxt : stamp x = p.term) :
    Progress Q v h { h with decisions := insert ⟨p.term, k, R⟩ h.decisions }
      { p with commit := k } := by
  obtain ⟨e, he, het, hev, hlog, -⟩ := hp.leader hrole
  set h' : History ν ε τ := { h with decisions := insert ⟨p.term, k, R⟩ h.decisions } with hh'
  have hext : h.Extends h' := ⟨List.suffix_refl _, subset_rfl, subset_rfl, Set.subset_insert _ _,
    fun _ _ => ⟨[], (List.append_nil _).symm, by simp⟩⟩
  have hklen : k ≤ p.log.length := by
    have := (List.getElem?_eq_some_iff.mp hx).1
    omega
  have hdec : h'.DecidedBy p.term (p.log.take k) := by
    refine Or.inr ⟨⟨p.term, k, R⟩, Set.mem_insert _ _, le_rfl, ?_⟩
    rw [hlog]
  refine ⟨?_, ?_, hext, ?_⟩
  · constructor
    case decision_quorum =>
      rintro d (rfl | hd)
      · exact ⟨hR, hacks⟩
      · exact hs.decision_quorum d hd
    case decision_stamp =>
      rintro d (rfl | hd)
      · exact ⟨x, hk, hlog ▸ hx, hxt⟩
      · exact hs.decision_stamp d hd
    case ballot_decided =>
      exact fun b hb => (hs.ballot_decided b hb).trans (Set.subset_insert _ _)
    all_goals first
      | exact hs.ballot_unique | exact hs.ballot_pos | exact hs.ballot_stamps | exact hs.ack_below
      | exact hs.ballot_acked | exact hs.ballot_elected | exact hs.ack_elected
      | exact hs.ballot_candidacy | exact hs.election_quorum | exact hs.election_unique
      | exact hs.ballot_traced | exact hs.leader_log | exact hs.unelected
  · exact ⟨hp.term_nonneg, hp.ballots, hp.vote, hp.acks, hp.traced, hp.base_le.trans hle, hklen,
      ⟨p.term, hdec, Or.inl le_rfl⟩, by simp [hrole], fun _ => ⟨e, he, het, hev, hlog, hdec⟩⟩
  · intro u hu q hq
    exact hq.extend hs hext (fun b hb _ => hb) (fun _ _ => id) (fun _ => Or.inl) (fun _ => rfl)

/-! ## 5. Following -/

/-- Taking over from a leader of term `t` whatever both logs share keeps what was acknowledged. -/
theorem Peer.Sound.acks_replaced (hp : p.Sound h v) {t : τ} {l : List ε}
    (ht : p.term ≤ t) (hel : h.Elected t)
    (hkeep : ∀ m, m <+: p.log → m <+: h.leaderLog t → m <+: l) {u : τ} {k : Nat}
    (hak : (v, u, k) ∈ h.acks) : u ≤ p.term ∧ (h.Holds u k l ∨ h.Lost u k) := by
  obtain ⟨huk, hheld | hlost⟩ := hp.acks u k hak
  · refine ⟨huk, ?_⟩
    rcases (huk.trans ht).lt_or_eq with hlt | rfl
    · by_cases hlead : h.Holds u k (h.leaderLog t)
      · exact Or.inl (hkeep _ hheld hlead)
      · exact Or.inr ⟨t, hel, hlt, hlead⟩
    · exact Or.inl (hkeep _ hheld (List.take_prefix _ _))
  · exact ⟨huk, Or.inr hlost⟩

/-- A peer's commit point survives whatever a leader it can follow sends. -/
theorem Peer.Sound.commit_kept (hs : h.Sound Q) (hp : p.Sound h v) {t : τ} {l : List ε}
    (ht : p.term ≤ t) (hel : h.Elected t)
    (hkeep : ∀ m, m <+: p.log → m <+: h.leaderLog t → m <+: l)
    (hbase : p.log.take p.base <+: l) : p.log.take p.commit <+: l := by
  obtain ⟨u, hu, hle | hle⟩ := hp.decided
  · exact hkeep _ (List.take_prefix _ _) (hs.decidedBy_held hu hel (hle.trans ht))
  · rwa [le_antisymm hle hp.base_le]

theorem Move.replicate_progress (hs : h.Sound Q) (hp : p.Sound h v) {t : τ} {l : List ε}
    (ht : p.term ≤ t) (hel : h.Elected t)
    (hkeep : ∀ m, m <+: p.log → m <+: h.leaderLog t → m <+: l)
    (hfrom : l <+: p.log ∨ l <+: h.leaderLog t) (hbase : p.log.take p.base <+: l) :
    Progress Q v h h { p with log := l, role := .follower } := by
  have hcommit := hp.commit_kept hs ht hel hkeep hbase
  have hlen : (p.log.take p.commit).length = p.commit :=
    List.length_take_of_le hp.commit_le
  have htake : l.take p.commit = p.log.take p.commit := by
    rw [← prefix_eq_take hcommit, hlen]
  refine Progress.ofPeer hs ⟨hp.term_nonneg, hp.ballots, hp.vote,
    fun u k => hp.acks_replaced ht hel hkeep, ?_, hp.base_le, ?_, ?_, by simp, by simp⟩
  · rcases hfrom with hl | hl
    · exact hp.traced.of_isPrefix hl
    · exact (hs.leader_traced t).of_isPrefix hl
  · exact hlen ▸ hcommit.length_le
  · rw [htake]
    exact hp.decided

theorem Move.installFresh_progress (hs : h.Sound Q) (hp : p.Sound h v) {t : τ} {k : Nat}
    (ht : p.term ≤ t) (hel : h.Elected t) (hk : k ≤ (h.leaderLog t).length)
    (hdec : h.Decided ((h.leaderLog t).take k)) (hnot : ¬ h.Holds t k p.log) :
    Progress Q v h h
      { p with log := (h.leaderLog t).take k, base := k, commit := k, role := .follower } := by
  have hlen : ((h.leaderLog t).take k).length = k := List.length_take_of_le hk
  have hkeep : ∀ m, m <+: p.log → m <+: h.leaderLog t → m <+: (h.leaderLog t).take k := by
    intro m hm hmt
    refine List.prefix_of_prefix_length_le hmt (List.take_prefix _ _) ?_
    rw [hlen]
    by_contra hlt
    refine hnot ((List.prefix_of_prefix_length_le (List.take_prefix _ _) hmt ?_).trans hm)
    omega
  obtain ⟨u, hu⟩ := hdec.by
  refine Progress.ofPeer hs ⟨hp.term_nonneg, hp.ballots, hp.vote,
    fun u k => hp.acks_replaced ht hel hkeep, (hs.leader_traced t).take k, le_rfl, hlen.ge,
    ⟨u, ?_, Or.inr le_rfl⟩, by simp, by simp⟩
  rwa [List.take_take, min_self]

theorem Move.installKept_progress (hs : h.Sound Q) (hp : p.Sound h v) {t : τ} {k : Nat}
    (hk : k ≤ (h.leaderLog t).length)
    (hdec : h.Decided ((h.leaderLog t).take k)) (hb : p.base ≤ k) (hheld : h.Holds t k p.log) :
    Progress Q v h h { p with base := k, commit := max p.commit k, role := .follower } := by
  have hlen : ((h.leaderLog t).take k).length = k := List.length_take_of_le hk
  have hkl : k ≤ p.log.length := hlen ▸ hheld.length_le
  refine Progress.ofPeer hs ⟨hp.term_nonneg, hp.ballots, hp.vote, hp.acks, hp.traced,
    le_max_right _ _, max_le hp.commit_le hkl, ?_, by simp, by simp⟩
  rcases le_total p.commit k with hle | hle
  · obtain ⟨u, hu⟩ := hdec.by
    have htake : p.log.take k = (h.leaderLog t).take k := by
      rw [← prefix_eq_take hheld, hlen]
    refine ⟨u, ?_, Or.inr (max_le hle le_rfl)⟩
    rwa [max_eq_right hle, htake]
  · obtain ⟨u, hu, hub⟩ := hp.decided
    refine ⟨u, by rwa [max_eq_left hle], ?_⟩
    rw [max_eq_left hle]
    exact hub.imp id fun hcb => hcb.trans hb

/-- **Every move keeps the history and every peer sound.** -/
theorem Move.sound (hm : Move Q v h p h' p') (hs : h.Sound Q) (hp : p.Sound h v) :
    Progress Q v h h' p' := by
  cases hm with
  | stepDown =>
    exact Progress.ofPeer hs { hp with candidate := by simp, leader := by simp }
  | observe t ht =>
    refine Progress.ofPeer hs ⟨hp.term_nonneg.trans ht.le, ?_, by simp, ?_, hp.traced, hp.base_le,
      hp.commit_le, ?_, by simp, by simp⟩
    · intro b hb hbv
      have hlt := (hp.ballots b hb hbv).1.trans_lt ht
      exact ⟨hlt.le, fun hbt => absurd hbt hlt.ne⟩
    · exact fun u k hak => ⟨(hp.acks u k hak).1.trans ht.le, (hp.acks u k hak).2⟩
    · obtain ⟨u, hu, hle⟩ := hp.decided
      exact ⟨u, hu, hle.imp (fun hut => hut.trans ht.le) id⟩
  | campaign t ht => exact Move.campaign_progress hs hp ht
  | grant b hb hself ht hvote hup => exact Move.grant_progress hs hp hb hself ht hvote hup
  | elect R hrole hR hvotes => exact Move.elect_progress hs hp hrole hR hvotes
  | append xs hrole hxs => exact Move.append_progress hs hp hrole hxs
  | ack k ht hk hheld => exact Move.ack_progress hs hp ht hk hheld
  | decide k R x hrole hR hacks hk hle hx hxt =>
    exact Move.decide_progress hs hp hrole hR hacks hk hle hx hxt
  | learn k hrole hk hle hdec =>
    exact Progress.ofPeer hs { hp with
      base_le := hp.base_le.trans hle
      commit_le := hk
      decided := ⟨p.term, hdec, Or.inl le_rfl⟩
      candidate := by simp [hrole]
      leader := by simp [hrole] }
  | compact b hb hle =>
    refine Progress.ofPeer hs { hp with base_le := hle, decided := ?_ }
    obtain ⟨u, hu, hub⟩ := hp.decided
    exact ⟨u, hu, hub.imp id fun hcb => hcb.trans hb⟩
  | replicate t l ht hel hkeep hfrom hbase =>
    exact Move.replicate_progress hs hp ht hel hkeep hfrom hbase
  | installKept t k ht hel hk hdec hb hheld =>
    exact Move.installKept_progress hs hp hk hdec hb hheld
  | installFresh t k ht hel hk hdec hb hle hnot =>
    exact Move.installFresh_progress hs hp ht hel hk hdec hnot

end Consensus
