/-
# What a member has said it stands by

A member speaks through its answers, its requests and its data directory.  What it said once binds
it for the rest of the run, whatever crashes and restarts come in between.

* `votes_binding` -- a vote is the only one of its term, and on disk for as long as the term lasts.
* `disk_never_recedes` -- term, vote, commit index, snapshot and committed entries of a directory.
* `leader_append_only` -- a leader neither drops nor rewrites an entry while its term lasts.
-/
import PyRaftKv.Guarantees.Agreement

open Consensus

namespace PyRaftKv

open Cluster

/-! ## 1. Votes -/

/-- In the network of `c`, member `u` votes for `w` in `term`: it granted `w` its vote, or it asked
for votes itself. -/
inductive Voted (c : Cluster) (u : NodeId) (term : Int) : NodeId → Prop
  | granted {a : Answer} {source : NodeId} {r : RequestVoteRequest} {response : RequestVoteResponse}
      (ha : a ∈ c.answers) (hrpc : c.rpcs[a.rpc]? = some ⟨source, u, .requestVote r⟩)
      (hresponse : a.response = .requestVote response) (hgranted : response.voteGranted = true)
      (hterm : r.term = term) : Voted c u term r.candidateId
  | stood {f : NodeId} {r : RequestVoteRequest} (hrpc : ⟨u, f, .requestVote r⟩ ∈ c.rpcs)
      (hterm : r.term = term) : Voted c u term u

section Votes

variable {c c' : Cluster} {g g' : Grp} {u w : NodeId} {term : Int}

/-- A vote in the network is a ballot on record. -/
theorem Refines.ballot (hr : Refines c g) (hv : Voted c u term w) :
    ∃ b ∈ g.history.ballots, b.voter = u ∧ b.candidate = w ∧ b.term = term := by
  cases hv with
  | granted ha hrpc hresponse hgranted hterm =>
    obtain ⟨rpc, hrpc', hanswered, -⟩ := hr.answers _ ha
    obtain rfl := Option.some.inj (hrpc.symm.trans hrpc')
    rw [hresponse] at hanswered
    obtain ⟨-, b, hb, hvoter, hcandidate, hbt⟩ := hanswered hgranted
    exact ⟨b, hb, hvoter, hcandidate, hbt.trans hterm⟩
  | stood hrpc hterm =>
    obtain ⟨hsource, b, hb, hvoter, hcandidate, hbt, -⟩ := hr.rpcs _ hrpc
    have hsource : _ = u := hsource
    exact ⟨b, hb, hvoter.trans hsource, hcandidate.trans hsource, hbt.trans hterm⟩

/-- **A vote binds.**  At any later time of the run, crashes and restarts included, the member's
votes in that term are for the same candidate, and its directory holds a later term, or that term
and that vote. -/
theorem votes_binding {m : Members} (hc : Reachable m c) (hv : Voted c u term w)
    (hl : Leads c c') :
    (∀ w', Voted c' u term w' → w' = w) ∧ term ≤ (c'.disk u).savedState.currentTerm ∧
      ((c'.disk u).savedState.currentTerm = term →
        (c'.disk u).savedState.votedFor = some w) := by
  obtain ⟨g, hr, -⟩ := hc.refines
  obtain ⟨g', hr', -, hx, -⟩ := hl.follows hr
  obtain ⟨b, hb, hvoter, hcandidate, hterm⟩ := hr.ballot hv
  have hb := hx.ballots hb
  have hd := hr'.onDisk u
  obtain ⟨hle, hvote⟩ := (hr'.sound.peer u).ballots b hb hvoter
  refine ⟨fun w' hw' => ?_, ?_, fun heq => ?_⟩
  · obtain ⟨b', hb', hvoter', hcandidate', hterm'⟩ := hr'.ballot hw'
    have hsame := hr'.sound.history.ballot_unique b hb b' hb' (hvoter.trans hvoter'.symm)
      (hterm.trans hterm'.symm)
    rw [← hcandidate', ← hsame, hcandidate]
  · rw [hd.term, ← hterm]
    exact hle
  · rw [hd.term] at heq
    rw [hd.vote, hvote (hterm.trans heq.symm), hcandidate]

end Votes

/-- Who asks for votes in the request at position `i`, and in which term. -/
def Cluster.standing (c : Cluster) (i : Nat) : Option (NodeId × Int) :=
  (c.rpcs[i]?).bind fun rpc =>
    match rpc.request with
    | .requestVote r => some (rpc.source, r.term)
    | _ => none

theorem Voted.of_standing {c : Cluster} {i : Nat} {u : NodeId} {term : Int}
    (h : c.standing i = some (u, term)) : Voted c u term u := by
  obtain ⟨⟨source, target, request⟩, hrpc, h⟩ := Option.bind_eq_some_iff.mp h
  split at h
  · rename_i r hrequest
    cases h
    obtain rfl : request = .requestVote r := hrequest
    exact .stood (List.mem_of_getElem? hrpc) rfl
  · cases h

/-- The first leader stood in term 1, and after the next election its directory says so. -/
theorem votes_binding_firstWrite : (∀ w, Voted afterSecondElection "a" 1 w → w = "a") ∧
    1 ≤ (afterSecondElection.disk "a").savedState.currentTerm := by
  have hstood : Voted afterFirstWrite "a" 1 "a" := .of_standing (i := 0) (by decide +kernel)
  have hl : Leads afterFirstWrite afterSecondElection :=
    (runs_leads (Option.some_get secondCampaign_runs).symm).tail
      ⟨_, (Option.some_get secondElection_steps).symm⟩
  have hbound := votes_binding afterFirstWrite_reachable hstood hl
  exact ⟨hbound.1, hbound.2.1⟩

/-! ## 2. The data directory -/

/-- How far a data directory knows the log committed. -/
def DataDir.knownCommit (d : DataDir) : Int :=
  max d.savedState.commitIndex d.loadSnapshot.lastIncludedIndex

theorem OnDisk.knownCommit {d : DataDir} {p : PeerState} (hd : OnDisk d p) :
    d.knownCommit = p.commit := by
  rw [DataDir.knownCommit, hd.snapshot.index, hd.commit]

/-- What the directory `d'` of a later time keeps of the directory `d`, where `committed` is
committed by then. -/
structure Upholds (committed : List LogEntry) (d d' : DataDir) : Prop where
  term : d.savedState.currentTerm ≤ d'.savedState.currentTerm
  vote : d'.savedState.currentTerm = d.savedState.currentTerm →
    ∀ w, d.savedState.votedFor = some w → d'.savedState.votedFor = some w
  commit : d.knownCommit ≤ d'.knownCommit
  snapshot : d.loadSnapshot.lastIncludedIndex ≤ d'.loadSnapshot.lastIncludedIndex
  entries : ∀ i : Nat, i < d.knownCommit → ∃ e, committed[i]? = some e ∧
    OnDiskHas d' committed e

/-- **A data directory never recedes.**  Over any run, whatever crashes between two effects and
restarts it has, no member's directory forgets a term, a vote of its term, a commit index, a
snapshot, or an entry it knew committed. -/
theorem disk_never_recedes {m : Members} {c c' : Cluster} (hc : Reachable m c) (hl : Leads c c')
    (u : NodeId) : Upholds c'.committed (c.disk u) (c'.disk u) := by
  obtain ⟨g, hr, -⟩ := hc.refines
  obtain ⟨g', hr', -, hx, hterm, hcommitted, hknown⟩ := hl.follows hr
  have hd := hr.onDisk u
  have hd' := hr'.onDisk u
  refine ⟨?_, fun heq w hw => ?_, ?_, ?_, fun i hi => ?_⟩
  · rw [hd.term, hd'.term]
    exact hterm u
  · rw [hd.term, hd'.term] at heq
    rw [hd.vote] at hw
    obtain ⟨b, hb, hvoter, hcandidate, hbt⟩ := (hr.sound.peer u).vote w hw
    have hvote := ((hr'.sound.peer u).ballots b (hx.ballots hb) hvoter).2 (hbt.trans heq.symm)
    rw [hd'.vote, hvote, hcandidate]
  · rw [hd.knownCommit, hd'.knownCommit]
    exact Int.ofNat_le.mpr (hknown u).1
  · rw [hd.snapshot.index, hd'.snapshot.index]
    exact Int.ofNat_le.mpr (hknown u).2
  · rw [hd.knownCommit] at hi
    -- the entry is below the member's commit point, then and later
    have hi' : i < (g'.peer u).commit := lt_of_lt_of_le (Int.ofNat_lt.mp hi) (hknown u).1
    have hlen : i < (g'.peer u).log.length := hi'.trans_le (hr'.sound.peer u).commit_le
    have he : (g'.peer u).log[i]? = some (g'.peer u).log[i] := List.getElem?_eq_getElem hlen
    refine ⟨_, getElem?_mono (hr'.commit_le u) ?_,
      hd'.has (hr'.peer_whole u) (hr'.base_isPrefix u) he⟩
    rw [List.getElem?_take, if_pos hi', he]

/-- The directory of the first leader, over the next election. -/
theorem disk_never_recedes_secondElection :
    Upholds afterSecondElection.committed (afterFirstWrite.disk "a")
      (afterSecondElection.disk "a") := by
  have hl : Leads afterFirstWrite afterSecondElection :=
    (runs_leads (Option.some_get secondCampaign_runs).symm).tail
      ⟨_, (Option.some_get secondElection_steps).symm⟩
  exact disk_never_recedes afterFirstWrite_reachable hl "a"

/-! ## 3. The leader's own log -/

/-- The log `log'` has all of `log` that it has not compacted, and above it entries of `term`. -/
structure Extended (term : Int) (log log' : RaftLog) : Prop where
  last : log.lastIndex ≤ log'.lastIndex
  base : log.baseIndex ≤ log'.baseIndex
  kept : ∀ k, log'.baseIndex < k → k ≤ log.lastIndex → ∃ e,
    log.get k = some e ∧ log'.get k = some e
  own : ∀ k e, log.lastIndex < k → log'.get k = some e → e.term = term

theorem Shows.extended {log log' : RaftLog} {l own : List LogEntry} {b b' : Nat} {term : Int}
    (hs : Shows log l b) (hs' : Shows log' (l ++ own) b') (hb : b ≤ b')
    (hown : ∀ x ∈ own, x.term = term) : Extended term log log' := by
  refine ⟨?_, ?_, fun k hk hle => ?_, fun k e hk he => ?_⟩
  · rw [hs.lastIndex, hs'.lastIndex, List.length_append]
    omega
  · rw [hs.base, hs'.base]
    exact Int.ofNat_le.mpr hb
  · rw [hs'.base] at hk
    rw [hs.lastIndex] at hle
    obtain ⟨i, rfl⟩ : ∃ i : Nat, k = i + 1 := ⟨(k - 1).toNat, by omega⟩
    have hi : l[i]? = some l[i] := List.getElem?_eq_getElem (by omega)
    refine ⟨l[i], hs.get_succ.mpr ⟨by omega, hi⟩, hs'.get_succ.mpr ⟨by omega, ?_⟩⟩
    exact getElem?_mono (List.prefix_append _ _) hi
  · rw [hs.lastIndex] at hk
    obtain ⟨i, rfl, -, hi⟩ := hs'.get_eq_some.mp he
    rw [List.getElem?_append_right (by omega)] at hi
    exact hown e (List.mem_of_getElem? hi)

/-- **A leader's log is append-only.**  Between any two moments at which a member leads in the same
term, its log has lost nothing but what it compacted, and what it gained is of that term. -/
theorem leader_append_only {m : Members} {c c' : Cluster} (hc : Reachable m c) (hl : Leads c c')
    {v : NodeId} {term : Int} (hv : LeadsIn c v term) (hv' : LeadsIn c' v term) :
    ∃ p p', c.process v = some p ∧ c'.process v = some p' ∧
      Extended term p.node.log p'.node.log := by
  obtain ⟨p, hp, hlead, hterm⟩ := hv
  obtain ⟨p', hp', hlead', hterm'⟩ := hv'
  obtain ⟨g, hr, -⟩ := hc.refines
  obtain ⟨g', hr', -, hx, -, -, hknown⟩ := hl.follows hr
  obtain ⟨e, he, het, -, hlog⟩ := hr.led hp hlead
  obtain ⟨-, -, -, -, hlog'⟩ := hr'.led hp' hlead'
  obtain ⟨own, hown, hstamp⟩ := hx.leaderLog term ⟨e, he, het.trans hterm⟩
  have hs' := (hr'.up v p' hp').mirrors.log
  rw [hlog', hterm', hown, ← hterm, ← hlog] at hs'
  exact ⟨p, p', hp, hp', (hr.up v p hp).mirrors.log.extended hs' (hknown v).2 hstamp⟩

/-- The leader of the first write takes a second one. -/
def secondSubmit : Action := .run "a" (.submitCommands [{ operation := .delete, key := "x" }])

theorem leader_append_only_secondSubmit : ∃ c' p p', afterFirstWrite.step secondSubmit = some c' ∧
    afterFirstWrite.process "a" = some p ∧ c'.process "a" = some p' ∧
    p.node.log.lastIndex = 1 ∧ p'.node.log.lastIndex = 2 ∧ Extended 1 p.node.log p'.node.log := by
  have hbefore : (afterFirstWrite.process "a").map (fun p =>
      (p.node.state.role, p.node.state.currentTerm, p.node.log.lastIndex)) =
        some (.leader, 1, 1) := by
    decide +kernel
  have hafter : ((afterFirstWrite.step secondSubmit).bind fun c => c.process "a").map (fun p =>
      (p.node.state.role, p.node.state.currentTerm, p.node.log.lastIndex)) =
        some (.leader, 1, 2) := by
    decide +kernel
  obtain ⟨p, hp, heq⟩ := Option.map_eq_some_iff.mp hbefore
  obtain ⟨p', hstep', heq'⟩ := Option.map_eq_some_iff.mp hafter
  obtain ⟨c', hstep, hp'⟩ := Option.bind_eq_some_iff.mp hstep'
  obtain ⟨hrole, hend⟩ := Prod.mk.inj heq
  obtain ⟨hterm, hlast⟩ := Prod.mk.inj hend
  obtain ⟨hrole', hend'⟩ := Prod.mk.inj heq'
  obtain ⟨hterm', hlast'⟩ := Prod.mk.inj hend'
  obtain ⟨q, q', hq, hq', hextended⟩ := leader_append_only afterFirstWrite_reachable
    (.single ⟨_, hstep⟩) ⟨p, hp, hrole, hterm⟩ ⟨p', hp', hrole', hterm'⟩
  cases hp.symm.trans hq
  cases hp'.symm.trans hq'
  exact ⟨c', p, p', hstep, hp, hp', hlast, hlast', hextended⟩

end PyRaftKv
