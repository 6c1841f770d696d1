/-
# A group of peers

The members of a fixed group each make moves of their own, one move at a time and in any order.
A history and the peers that belong to it form a `Group`; whatever a member does in a row of moves
keeps the group sound (`Group.Sound.act`), so every statement about sound groups holds after any
run.  The last section collects what a sound group promises.

Quorums are majorities of a finite set of members here, the one family the runs use.
-/
import PyRaftKv.Consensus.Peer

set_option linter.unusedSectionVars false

namespace Consensus

/-! ## 1. Majorities -/

/-- The sets that contain more than half of `s`. -/
def majorities {ν : Type*} [DecidableEq ν] (s : Finset ν) : Quorums ν where
  isQuorum := {Q | ∃ R : Finset ν, R ⊆ s ∧ ↑R ⊆ Q ∧ s.card < 2 * R.card}
  meet := by
    rintro Q R ⟨A, hA, hAQ, hAc⟩ ⟨B, hB, hBR, hBc⟩
    obtain ⟨v, hv⟩ := Finset.inter_nonempty_of_card_lt_card_add_card hA hB (by omega)
    rw [Finset.mem_inter] at hv
    exact ⟨v, hAQ hv.1, hBR hv.2⟩

variable {ν ε τ : Type*} [LinearOrder τ] [Zero τ] [Stamped ε τ]

/-! ## 2. Moves in a row -/

/-- Any number of moves of one peer, the history going on with each. -/
inductive Moves (Q : Quorums ν) (v : ν) (h : History ν ε τ) (p : Peer ν ε τ) :
    History ν ε τ → Peer ν ε τ → Prop
  | refl : Moves Q v h p h p
  | tail {h' h'' : History ν ε τ} {p' p'' : Peer ν ε τ} (hms : Moves Q v h p h' p')
      (hm : Move Q v h' p' h'' p'') : Moves Q v h p h'' p''

variable {Q : Quorums ν} {v : ν} {h h' h'' : History ν ε τ} {p p' p'' : Peer ν ε τ}

theorem Move.moves (hm : Move Q v h p h' p') : Moves Q v h p h' p' := .tail .refl hm

theorem Moves.trans (hms : Moves Q v h p h' p') (hms' : Moves Q v h' p' h'' p'') :
    Moves Q v h p h'' p'' := by
  induction hms' with
  | refl => exact hms
  | tail _ hm ih => exact .tail ih hm

theorem Progress.refl (hs : h.Sound Q) (hp : p.Sound h v) : Progress Q v h h p :=
  ⟨hs, hp, History.Extends.refl h, fun _ _ _ hq => hq⟩

theorem Progress.trans (hp : Progress Q v h h' p') (hp' : Progress Q v h' h'' p'') :
    Progress Q v h h'' p'' :=
  ⟨hp'.history, hp'.peer, hp.longer.trans hp'.longer,
    fun u hu q hq => hp'.others u hu q (hp.others u hu q hq)⟩

/-- What one move keeps, a row of moves keeps. -/
theorem Moves.sound (hms : Moves Q v h p h' p') (hs : h.Sound Q) (hp : p.Sound h v) :
    Progress Q v h h' p' := by
  induction hms with
  | refl => exact Progress.refl hs hp
  | tail _ hm ih => exact ih.trans (hm.sound ih.history ih.peer)

/-- Every peer may lay down its role: the effect of a crash. -/
theorem Moves.stepDown (hms : Moves Q v h p h' p') :
    Moves Q v h p h' { p' with role := .follower } := hms.tail .stepDown

/-- A peer's term never goes down. -/
theorem Move.term_le (hm : Move Q v h p h' p') : p.term ≤ p'.term := by
  cases hm <;> first | exact le_rfl | exact le_of_lt ‹_›

theorem Moves.term_le (hms : Moves Q v h p h' p') : p.term ≤ p'.term := by
  induction hms with
  | refl => exact le_rfl
  | tail _ hm ih => exact ih.trans hm.term_le

/-- Nor does its commit point. -/
theorem Move.commit_le (hm : Move Q v h p h' p') : p.commit ≤ p'.commit := by
  cases hm <;> first | exact le_rfl | exact le_max_left _ _ | assumption

theorem Moves.commit_le (hms : Moves Q v h p h' p') : p.commit ≤ p'.commit := by
  induction hms with
  | refl => exact le_rfl
  | tail _ hm ih => exact ih.trans hm.commit_le

/-- Nor does its compaction point. -/
theorem Move.base_le (hm : Move Q v h p h' p') : p.base ≤ p'.base := by
  cases hm <;> first | exact le_rfl | assumption

theorem Moves.base_le (hms : Moves Q v h p h' p') : p.base ≤ p'.base := by
  induction hms with
  | refl => exact le_rfl
  | tail _ hm ih => exact ih.trans hm.base_le

/-- **A peer that leads, in a term that it was elected in before, has led all along**: it can lead
again in a later term only. -/
theorem Moves.led (hms : Moves Q v h p h' p') (hs : h.Sound Q) (hp : p.Sound h v)
    (hel : ∃ e ∈ h.elections, e.term = p.term ∧ e.leader = v) (hterm : p'.term = p.term)
    (hrole : p'.role = .leader) : p.role = .leader := by
  induction hms with
  | refl => exact hrole
  | @tail h₁ h₂ p₁ p₂ hms hm ih =>
    have hterm₁ : p₁.term = p.term := le_antisymm (hm.term_le.trans_eq hterm) hms.term_le
    have hprogress := hms.sound hs hp
    refine ih hterm₁ ?_
    cases hm with
    | elect R hcandidate =>
      -- a candidate has not been elected in its term
      obtain ⟨c, -, -, -, -, -, hnot, -⟩ := hprogress.peer.candidate hcandidate
      obtain ⟨e, he, het, hev⟩ := hel
      exact absurd hev (hnot e (hprogress.longer.elections.subset he) (het.trans hterm₁.symm))
    | grant => exact hrole
    | append _ hlead => exact hlead
    | ack => exact hrole
    | decide _ _ _ hlead => exact hlead
    | learn => exact hrole
    | compact => exact hrole
    | _ => cases hrole

/-! ## 3. The group -/

structure Group (ν ε τ : Type*) where
  history : History ν ε τ
  peer : ν → Peer ν ε τ

namespace Group

/-- The history is sound, and every peer against it. -/
structure Sound (Q : Quorums ν) (g : Group ν ε τ) : Prop where
  history : g.history.Sound Q
  peer : ∀ v, (g.peer v).Sound g.history v

/-- Before anything has happened. -/
def initial : Group ν ε τ where
  history := ⟨[], fun _ => [], ∅, ∅, ∅⟩
  peer _ := ⟨0, none, .follower, [], 0, 0⟩

theorem initial_sound : (initial : Group ν ε τ).Sound Q where
  history := by
    constructor <;> simp [initial, History.Elected]
  peer v := by
    refine ⟨le_rfl, ?_, ?_, ?_, History.Traced.nil, le_rfl, le_rfl, ⟨0, Or.inl rfl, Or.inl le_rfl⟩,
      ?_, ?_⟩ <;> simp [initial]

variable [DecidableEq ν]

/-- The group after member `v` has moved. -/
def act (g : Group ν ε τ) (v : ν) (h' : History ν ε τ) (p' : Peer ν ε τ) : Group ν ε τ :=
  ⟨h', Function.update g.peer v p'⟩

variable {g : Group ν ε τ}

@[simp] theorem act_history : (g.act v h' p').history = h' := rfl

@[simp] theorem act_peer_self : (g.act v h' p').peer v = p' := Function.update_self _ _ _

theorem act_peer_of_ne {u : ν} (hu : u ≠ v) : (g.act v h' p').peer u = g.peer u :=
  Function.update_of_ne hu _ _

/-- **A row of moves of any member keeps the group sound**, and only adds to its history. -/
theorem Sound.act (hg : g.Sound Q) (hms : Moves Q v g.history (g.peer v) h' p') :
    (g.act v h' p').Sound Q ∧ g.history.Extends h' := by
  have hpr := hms.sound hg.history (hg.peer v)
  refine ⟨⟨hpr.history, fun u => ?_⟩, hpr.longer⟩
  by_cases hu : u = v
  · subst hu
    rw [act_peer_self]
    exact hpr.peer
  · rw [act_peer_of_ne hu]
    exact hpr.others u hu _ (hg.peer u)

/-! ## 4. What a sound group promises -/

namespace Sound

/-- What a member's commit point covers is decided. -/
theorem commit_decided (hg : g.Sound Q) (u : ν) :
    g.history.Decided ((g.peer u).log.take (g.peer u).commit) := by
  obtain ⟨t, ht, -⟩ := (hg.peer u).decided
  exact ht.decided

/-- A member of the quorum behind a decision still holds what was decided. -/
theorem quorum_holds (hg : g.Sound Q) {d : Decision ν τ} (hd : d ∈ g.history.decisions) {u : ν}
    (hu : u ∈ d.quorum) : g.history.Holds d.term d.index (g.peer u).log := by
  have hack := (hg.history.decision_quorum d hd).2 u hu
  refine ((hg.peer u).acks _ _ hack).2.resolve_right ?_
  rintro ⟨t, ht, hlt, hnot⟩
  exact hnot (hg.history.decision_held hd ht hlt.le)

end Sound

end Group

end Consensus
