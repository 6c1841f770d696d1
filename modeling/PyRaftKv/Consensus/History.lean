/-
# The history of a term-based replicated log

A replicated log in which a LEADER is elected once per term, appends only to its own log and
copies that log to its followers leaves behind a history: who voted for whom and with what
log, who was elected and with which quorum, what each leader's log became, which positions
were acknowledged and which were DECIDED.  This file studies that history on its own, with no
node, message or step in sight.

* `Traced h l` -- every entry of `l` is, together with everything below it, a prefix of the log
  of the leader of its term.  Two traced logs that agree on the term at one index agree on
  everything below it (`Traced.matching`), which is log matching.
* `Sound h` -- what every history keeps: ballots are unique, elections rest on quorums of
  ballots, a ballot's log still HOLDS what its voter had acknowledged unless a leader elected
  before it had already LOST it.
* `Sound.complete` -- leader completeness: a position acknowledged by a quorum in its own term
  is in the log of every leader of a later term.  The induction is over the elections in the
  order in which they happened, not over terms: a candidate may be elected after a leader of a
  higher term.

Terms are any linear order with a starting term `0`, quorums any family of sets that meet
pairwise, and an entry is anything with a term.
-/
import Mathlib

set_option linter.unusedSectionVars false

namespace Consensus

/-- A family of quorums any two of which have a member in common. -/
structure Quorums (ν : Type*) where
  isQuorum : Set ν → Prop
  meet : ∀ {Q R : Set ν}, isQuorum Q → isQuorum R → ∃ v, v ∈ Q ∧ v ∈ R

/-- An entry carries the term of the leader that created it. -/
class Stamped (ε : Type*) (τ : outParam Type*) where
  stamp : ε → τ

export Stamped (stamp)

/-! ## 1. Prefixes -/

section Prefixes

variable {α : Type*}

/-- What stands at position `i`, with everything before it, is a prefix. -/
theorem take_snoc_isPrefix {l : List α} {i : Nat} {x : α} (h : l[i]? = some x) :
    l.take i ++ [x] <+: l := by
  obtain ⟨hi, rfl⟩ := List.getElem?_eq_some_iff.mp h
  rw [List.take_append_getElem hi]
  exact List.take_prefix _ _

/-- A prefix is the longer list cut at its own length. -/
theorem prefix_eq_take {l m : List α} (h : l <+: m) : m.take l.length = l :=
  (List.prefix_iff_eq_take.mp h).symm

theorem getElem?_of_isPrefix {l m : List α} {i : Nat} (h : l <+: m) (hi : i < l.length) :
    m[i]? = l[i]? := by
  obtain ⟨t, rfl⟩ := h
  rw [List.getElem?_append_left hi]

/-- What stands at a position of a prefix stands there in the longer list. -/
theorem getElem?_mono {l m : List α} {i : Nat} {x : α} (h : l <+: m) (hx : l[i]? = some x) :
    m[i]? = some x := by
  rw [getElem?_of_isPrefix h (List.getElem?_eq_some_iff.mp hx).1, hx]

/-- Of a list that is long enough, a prefix cut shorter is still cut from the same list. -/
theorem take_eq_of_isPrefix {l m : List α} (h : l <+: m) {k : Nat} (hk : k ≤ l.length) :
    m.take k = l.take k := by
  obtain ⟨t, rfl⟩ := h
  rw [List.take_append_of_le_length hk]

/-- A prefix of `l ++ m` reaches into `m` or is a prefix of `l`. -/
theorem prefix_append_cases {p l m : List α} (h : p <+: l ++ m) :
    p <+: l ∨ ∃ q, q ≠ [] ∧ q <+: m ∧ p = l ++ q := by
  rcases Nat.lt_or_ge l.length p.length with hlt | hge
  · right
    have hl : l <+: p := List.prefix_of_prefix_length_le (List.prefix_append l m) h hlt.le
    obtain ⟨q, rfl⟩ := hl
    refine ⟨q, ?_, (List.prefix_append_right_inj l).mp h, rfl⟩
    rintro rfl
    simp at hlt
  · exact Or.inl (List.prefix_of_prefix_length_le h (List.prefix_append l m) hge)

/-- Every member of a list starts a suffix of it. -/
theorem suffix_of_mem {l : List α} {x : α} (h : x ∈ l) : ∃ xs, x :: xs <:+ l := by
  obtain ⟨pre, post, rfl⟩ := List.append_of_mem h
  exact ⟨post, pre, rfl⟩

end Prefixes

/-! ## 2. The history -/

variable {ν ε τ : Type*}

/-- A position the leader of `term` declared final, and the quorum that had acknowledged it. -/
structure Decision (ν τ : Type*) where
  term : τ
  index : Nat
  quorum : Set ν

/-- A vote: who gave it to whom in which term, with what log, and what was already elected and
decided when it was given.  A candidate's ballot for itself records its candidacy. -/
structure Ballot (ν ε τ : Type*) where
  voter : ν
  candidate : ν
  term : τ
  log : List ε
  elected : Set τ
  decided : Set (Decision ν τ)

/-- A won election and the quorum that won it. -/
structure Election (ν τ : Type*) where
  term : τ
  leader : ν
  quorum : Set ν

/-- All that ever happened.  `elections` has the latest first. -/
structure History (ν ε τ : Type*) where
  elections : List (Election ν τ)
  leaderLog : τ → List ε
  ballots : Set (Ballot ν ε τ)
  acks : Set (ν × τ × Nat)
  decisions : Set (Decision ν τ)

/-- The term of the last entry, or the starting term. -/
def lastStamp [Stamped ε τ] [Zero τ] (l : List ε) : τ := (l.getLast?.map stamp).getD 0

/-- `l` is at least as up to date as `m`. -/
def UpToDate [Stamped ε τ] [Zero τ] [LT τ] (l m : List ε) : Prop :=
  lastStamp m < lastStamp l ∨ (lastStamp m = lastStamp l ∧ m.length ≤ l.length)

namespace History

variable [LinearOrder τ] [Zero τ] [Stamped ε τ]

/-- Term `t` has had a leader. -/
def Elected (h : History ν ε τ) (t : τ) : Prop := ∃ e ∈ h.elections, e.term = t

/-- **Provenance.**  Every entry of `l`, with all that is below it, stands in the log of the
leader of the entry's term. -/
def Traced (h : History ν ε τ) (l : List ε) : Prop :=
  ∀ l' x, l' ++ [x] <+: l → h.Elected (stamp x) ∧ l' ++ [x] <+: h.leaderLog (stamp x)

/-- The first `k` entries of the term-`t` leader's log are in `l`. -/
def Holds (h : History ν ε τ) (t : τ) (k : Nat) (l : List ε) : Prop :=
  (h.leaderLog t).take k <+: l

/-- Some leader of a later term in `ts` does not hold the first `k` entries of term `t`. -/
def LostBy (h : History ν ε τ) (ts : Set τ) (t : τ) (k : Nat) : Prop :=
  ∃ u ∈ ts, t < u ∧ ¬ h.Holds t k (h.leaderLog u)

/-- What every history keeps. -/
structure Sound (Q : Quorums ν) (h : History ν ε τ) : Prop where
  /-- One ballot per voter and term. -/
  ballot_unique : ∀ b ∈ h.ballots, ∀ b' ∈ h.ballots, b.voter = b'.voter → b.term = b'.term →
    b = b'
  ballot_pos : ∀ b ∈ h.ballots, 0 < b.term
  /-- A ballot records elections that happened, and a log made of entries of theirs. -/
  ballot_elected : ∀ b ∈ h.ballots, ∀ t ∈ b.elected, h.Elected t
  ballot_traced : ∀ b ∈ h.ballots, h.Traced b.log
  ballot_stamps : ∀ b ∈ h.ballots, ∀ x ∈ b.log, stamp x ∈ b.elected
  /-- A ballot answers a candidacy that came before it and whose log is as up to date; in it the
  voter had reached no decision and no election the candidate knew of beyond the ballot's term. -/
  ballot_candidacy : ∀ b ∈ h.ballots, ∃ c ∈ h.ballots,
    c.voter = b.candidate ∧ c.candidate = b.candidate ∧ c.term = b.term ∧
    UpToDate c.log b.log ∧ c.elected ⊆ b.elected ∧
    (∀ d ∈ c.decided, b.voter ∈ d.quorum → d.term ≤ b.term) ∧
    (∀ e ∈ h.elections, e.term ∈ c.elected → b.voter ∈ e.quorum → e.term < b.term)
  /-- A voter still held what it had acknowledged, unless a leader it could follow did not. -/
  ballot_acked : ∀ b ∈ h.ballots, ∀ t k, (b.voter, t, k) ∈ h.acks → t < b.term →
    h.Holds t k b.log ∨ h.LostBy b.elected t k
  /-- An election rests on a quorum of ballots, all cast before it. -/
  election_quorum : ∀ e es, e :: es <:+ h.elections → Q.isQuorum e.quorum ∧
    ∀ v ∈ e.quorum, ∃ b ∈ h.ballots, b.voter = v ∧ b.candidate = e.leader ∧ b.term = e.term ∧
      ∀ t ∈ b.elected, ∃ e' ∈ es, e'.term = t
  election_unique : ∀ e ∈ h.elections, ∀ e' ∈ h.elections, e.term = e'.term → e = e'
  /-- A leader's log is the log of its candidacy, all of earlier terms, and then its own entries. -/
  leader_log : ∀ e ∈ h.elections, ∃ c ∈ h.ballots, ∃ own,
    c.voter = e.leader ∧ c.candidate = e.leader ∧ c.term = e.term ∧
    h.leaderLog e.term = c.log ++ own ∧ (∀ x ∈ c.log, stamp x < e.term) ∧
    ∀ x ∈ own, stamp x = e.term
  unelected : ∀ t, ¬ h.Elected t → h.leaderLog t = []
  /-- What is acknowledged in a term is in that term's leader's log; below it, all is. -/
  ack_elected : ∀ v t k, (v, t, k) ∈ h.acks → h.Elected t ∧ k ≤ (h.leaderLog t).length
  ack_below : ∀ v t k j, (v, t, k) ∈ h.acks → j ≤ k → (v, t, j) ∈ h.acks
  /-- A decision is of an entry of the deciding term that a quorum has acknowledged. -/
  decision_quorum : ∀ d ∈ h.decisions, Q.isQuorum d.quorum ∧
    ∀ v ∈ d.quorum, (v, d.term, d.index) ∈ h.acks
  decision_stamp : ∀ d ∈ h.decisions, ∃ x, 0 < d.index ∧
    (h.leaderLog d.term)[d.index - 1]? = some x ∧ stamp x = d.term
  ballot_decided : ∀ b ∈ h.ballots, b.decided ⊆ h.decisions

/-! ## 3. Log matching -/

variable {h : History ν ε τ} {Q : Quorums ν}

theorem Traced.nil : h.Traced [] := by
  intro l' x hp
  simpa using hp.length_le

theorem Traced.of_isPrefix {l m : List ε} (hm : h.Traced m) (hp : l <+: m) : h.Traced l :=
  fun l' x hx => hm l' x (hx.trans hp)

theorem Traced.take {l : List ε} (hl : h.Traced l) (k : Nat) : h.Traced (l.take k) :=
  hl.of_isPrefix (List.take_prefix k l)

/-- A traced log that ends in `x` is a prefix of the log of the leader of `x`'s term. -/
theorem Traced.snoc_isPrefix {l : List ε} {x : ε} (hl : h.Traced (l ++ [x])) :
    l ++ [x] <+: h.leaderLog (stamp x) :=
  (hl l x (List.prefix_refl _)).2

/-- **Log matching.**  Two traced logs whose entries at one position have the same term are
equal up to and including that position. -/
theorem Traced.matching {l m : List ε} (hl : h.Traced l) (hm : h.Traced m) {i : Nat} {x y : ε}
    (hx : l[i]? = some x) (hy : m[i]? = some y) (hs : stamp x = stamp y) :
    l.take (i + 1) = m.take (i + 1) := by
  have hli : i < l.length := (List.getElem?_eq_some_iff.mp hx).1
  have hmi : i < m.length := (List.getElem?_eq_some_iff.mp hy).1
  have hlx := (hl _ _ (take_snoc_isPrefix hx)).2
  have hmy := (hm _ _ (take_snoc_isPrefix hy)).2
  have hxl : l.take i ++ [x] = l.take (i + 1) := by
    rw [List.take_add_one, hx]; rfl
  have hym : m.take i ++ [y] = m.take (i + 1) := by
    rw [List.take_add_one, hy]; rfl
  rw [hxl] at hlx
  rw [hym, ← hs] at hmy
  have hlen : (l.take (i + 1)).length = (m.take (i + 1)).length := by
    simp only [List.length_take]; omega
  exact (List.prefix_of_prefix_length_le hlx hmy hlen.le).eq_of_length hlen

/-- Two traced logs whose last terms agree at one length are equal up to it. -/
theorem Traced.take_eq {l m : List ε} (hl : h.Traced l) (hm : h.Traced m) {k : Nat}
    (hkl : k ≤ l.length) (hkm : k ≤ m.length) (hs : lastStamp (l.take k) = lastStamp (m.take k)) :
    l.take k = m.take k := by
  rcases k with _ | i
  · rfl
  · have hx : l[i]? = some l[i] := List.getElem?_eq_getElem hkl
    have hy : m[i]? = some m[i] := List.getElem?_eq_getElem hkm
    refine hl.matching hm hx hy ?_
    rw [List.take_add_one, List.take_add_one, hx, hy] at hs
    simpa only [lastStamp, Option.toList_some, List.getLast?_concat, Option.map_some,
      Option.getD_some] using hs

namespace Sound

theorem elected_pos (hs : Sound Q h) {t : τ} (ht : h.Elected t) : 0 < t := by
  obtain ⟨e, he, rfl⟩ := ht
  obtain ⟨c, hc, -, -, -, hct, -⟩ := hs.leader_log e he
  exact hct ▸ hs.ballot_pos c hc

/-- A leader's log holds entries of its own and of earlier terms only. -/
theorem leader_stamps (hs : Sound Q h) {t : τ} (ht : h.Elected t) :
    ∀ x ∈ h.leaderLog t, stamp x ≤ t := by
  obtain ⟨e, he, rfl⟩ := ht
  obtain ⟨c, -, own, -, -, -, hlog, hstart, hown⟩ := hs.leader_log e he
  intro x hx
  rw [hlog] at hx
  rcases List.mem_append.mp hx with hx | hx
  · exact (hstart x hx).le
  · exact (hown x hx).le

/-- A leader's log is traced. -/
theorem leader_traced (hs : Sound Q h) (t : τ) : h.Traced (h.leaderLog t) := by
  by_cases ht : h.Elected t
  · obtain ⟨e, he, rfl⟩ := ht
    obtain ⟨c, hc, own, -, -, -, hlog, -, hown⟩ := hs.leader_log e he
    intro l' x hp
    have hp' := hp
    rw [hlog] at hp'
    rcases prefix_append_cases hp' with hc' | ⟨q, hq, hqo, heq⟩
    · exact hs.ballot_traced c hc l' x hc'
    · -- the entry is one of the leader's own
      have hx : x ∈ own := by
        refine hqo.subset ?_
        have hlast : (l' ++ [x]).getLast? = some x := by simp
        rw [heq, List.getLast?_append_of_ne_nil _ hq] at hlast
        exact List.mem_of_getLast? hlast
      rw [hown x hx]
      exact ⟨⟨e, he, rfl⟩, hp⟩
  · rw [hs.unelected t ht]
    exact Traced.nil

/-- Terms do not decrease along a traced log. -/
theorem stamps_le_last (hs : Sound Q h) {l : List ε} {x : ε} (hl : h.Traced (l ++ [x])) :
    ∀ y ∈ l ++ [x], stamp y ≤ stamp x := by
  obtain ⟨ht, hp⟩ := hl l x (List.prefix_refl _)
  exact fun y hy => hs.leader_stamps ht y (hp.subset hy)

theorem stamps_mono (hs : Sound Q h) {l : List ε} (hl : h.Traced l) {i j : Nat} {x y : ε}
    (hij : i ≤ j) (hx : l[i]? = some x) (hy : l[j]? = some y) : stamp x ≤ stamp y := by
  refine hs.stamps_le_last (hl.of_isPrefix (take_snoc_isPrefix hy)) x ?_
  have hj := (List.getElem?_eq_some_iff.mp hy).1
  have hxi : (l.take j ++ [y])[i]? = some x := by
    rw [← hx]
    refine (getElem?_of_isPrefix (take_snoc_isPrefix hy) ?_).symm
    simp only [List.length_append, List.length_take, List.length_singleton]
    omega
  exact List.mem_of_getElem? hxi

/-! ## 4. Leader completeness -/

/-- A position that closes a prefix of the term-`t` leader's log: its entries are of terms up to
`t`. -/
theorem take_stamps (hs : Sound Q h) {t : τ} (ht : h.Elected t) (k : Nat) :
    ∀ x ∈ (h.leaderLog t).take k, stamp x ≤ t :=
  fun x hx => hs.leader_stamps ht x (List.mem_of_mem_take hx)

/-- **A log as up to date as one that holds a position of term `t` holds it too**, as long as the
leaders of the later terms it has entries of do. -/
theorem dominate (hs : Sound Q h) {t : τ} {k : Nat} {x : ε} (ht : h.Elected t) (hk : 0 < k)
    (hx : (h.leaderLog t)[k - 1]? = some x) (hxt : stamp x = t) {l m : List ε}
    (hl : h.Traced l) (hm : h.Traced m) (hheld : h.Holds t k m) (hup : UpToDate l m)
    (hlater : ∀ y ∈ l, t < stamp y → h.Holds t k (h.leaderLog (stamp y))) :
    h.Holds t k l := by
  have hxm : x ∈ m := by
    refine hheld.subset ?_
    have : ((h.leaderLog t).take k)[k - 1]? = some x := by
      rw [List.getElem?_take, if_pos (by omega), hx]
    exact List.mem_of_getElem? this
  obtain rfl | ⟨m', y, rfl⟩ := m.eq_nil_or_concat'
  · cases hxm
  have hty : t ≤ stamp y := hxt ▸ hs.stamps_le_last hm x hxm
  have hlastm : lastStamp (m' ++ [y]) = stamp y := by simp [lastStamp]
  have hle : stamp y ≤ lastStamp l := by
    rcases hup with hlt | ⟨heq, -⟩
    · exact hlastm ▸ hlt.le
    · exact (hlastm ▸ heq).le
  obtain rfl | ⟨l', z, rfl⟩ := l.eq_nil_or_concat'
  · have h0 : (0 : τ) < lastStamp ([] : List ε) := (hs.elected_pos ht).trans_le (hty.trans hle)
    exact absurd h0 (lt_irrefl _)
  have hlastl : lastStamp (l' ++ [z]) = stamp z := by simp [lastStamp]
  rw [hlastl] at hle
  have hlz := hl.snoc_isPrefix
  rcases (hty.trans hle).lt_or_eq with hlt | heq
  · -- the log ends in an entry of a later leader, who holds the position
    have hzl := hlater z (by simp) hlt
    rcases List.prefix_or_prefix_of_prefix hzl hlz with hp | hp
    · exact hp
    · have := hs.take_stamps ht k z (hp.subset (by simp))
      exact absurd this (not_le.mpr hlt)
  · -- both logs end in entries of term `t`: the longer one contains the shorter
    have hyz : stamp y = stamp z := le_antisymm hle (heq ▸ hty)
    have hmy := hm.snoc_isPrefix
    rw [hyz] at hmy
    have hlen : (m' ++ [y]).length ≤ (l' ++ [z]).length := by
      rcases hup with hlt | ⟨-, hlen⟩
      · rw [hlastm, hlastl, hyz] at hlt
        exact absurd hlt (lt_irrefl _)
      · exact hlen
    exact hheld.trans (List.prefix_of_prefix_length_le hmy hlz hlen)

/-- **Leader completeness.**  A position that a quorum acknowledged in the term of its own entry
is held by the leader of every later term. -/
theorem complete (hs : Sound Q h) {t : τ} {k : Nat} {x : ε} {R : Set ν} (hR : Q.isQuorum R)
    (hacks : ∀ v ∈ R, (v, t, k) ∈ h.acks) (hk : 0 < k)
    (hx : (h.leaderLog t)[k - 1]? = some x) (hxt : stamp x = t) :
    ∀ e ∈ h.elections, t < e.term → h.Holds t k (h.leaderLog e.term) := by
  have ht : h.Elected t := by
    obtain ⟨v, hv, -⟩ := Q.meet hR hR
    exact (hs.ack_elected v t k (hacks v hv)).1
  -- the induction is on the elections in the order they happened
  suffices H : ∀ es, es <:+ h.elections → ∀ e ∈ es, t < e.term →
      h.Holds t k (h.leaderLog e.term) from H h.elections (List.suffix_refl _)
  intro es
  induction es with
  | nil => intro _ e he; cases he
  | cons e es ih =>
    intro hsuf
    have ih' := ih ((List.suffix_cons e es).trans hsuf)
    intro e' he' hlt
    rcases List.mem_cons.mp he' with rfl | he'
    · obtain ⟨hq, hvotes⟩ := hs.election_quorum e' es hsuf
      obtain ⟨v, hvR, hve⟩ := Q.meet hR hq
      obtain ⟨b, hb, rfl, hbc, hbt, hbe⟩ := hvotes v hve
      -- the common member still held the position when it voted
      have hheld : h.Holds t k b.log := by
        refine (hs.ballot_acked b hb t k (hacks _ hvR) (hbt ▸ hlt)).resolve_right ?_
        rintro ⟨u, hu, htu, hnot⟩
        obtain ⟨e'', he'', rfl⟩ := hbe u hu
        exact hnot (ih' e'' he'' htu)
      obtain ⟨c, hc, hcv, hcc, hct, hup, hce, -, -⟩ := hs.ballot_candidacy b hb
      have hcand : h.Holds t k c.log := by
        refine hs.dominate ht hk hx hxt (hs.ballot_traced c hc) (hs.ballot_traced b hb) hheld hup ?_
        intro y hy hty
        obtain ⟨e'', he'', heq⟩ := hbe _ (hce (hs.ballot_stamps c hc y hy))
        exact heq ▸ ih' e'' he'' (heq ▸ hty)
      -- the log of the candidacy is where the new leader's log starts
      obtain ⟨c', hc', own, hcv', -, hct', hlog, -, -⟩ := hs.leader_log e' (hsuf.subset (by simp))
      obtain rfl : c = c' := hs.ballot_unique c hc c' hc' (by rw [hcv, hbc, hcv'])
        (by rw [hct, hbt, hct'])
      rw [hlog]
      exact hcand.trans (List.prefix_append _ _)
    · exact ih' e' he' hlt

end Sound

/-! ## 5. Decided prefixes -/

/-- `l` is part of what some leader decided. -/
def Decided (h : History ν ε τ) (l : List ε) : Prop :=
  l = [] ∨ ∃ d ∈ h.decisions, l <+: (h.leaderLog d.term).take d.index

/-- `l` is part of what some leader of a term up to `u` decided. -/
def DecidedBy (h : History ν ε τ) (u : τ) (l : List ε) : Prop :=
  l = [] ∨ ∃ d ∈ h.decisions, d.term ≤ u ∧ l <+: (h.leaderLog d.term).take d.index

theorem DecidedBy.decided {u : τ} {l : List ε} : h.DecidedBy u l → h.Decided l
  | Or.inl hl => Or.inl hl
  | Or.inr ⟨d, hd, _, hl⟩ => Or.inr ⟨d, hd, hl⟩

theorem DecidedBy.mono {u u' : τ} {l : List ε} (hu : u ≤ u') : h.DecidedBy u l → h.DecidedBy u' l
  | Or.inl hl => Or.inl hl
  | Or.inr ⟨d, hd, hdu, hl⟩ => Or.inr ⟨d, hd, hdu.trans hu, hl⟩

theorem DecidedBy.of_isPrefix {u : τ} {l m : List ε} (hm : h.DecidedBy u m) (hp : l <+: m) :
    h.DecidedBy u l := by
  rcases hm with rfl | ⟨d, hd, hdu, hm⟩
  · exact Or.inl (List.prefix_nil.mp hp)
  · exact Or.inr ⟨d, hd, hdu, hp.trans hm⟩

theorem Decided.of_isPrefix {l m : List ε} (hm : h.Decided m) (hp : l <+: m) : h.Decided l := by
  rcases hm with rfl | ⟨d, hd, hm⟩
  · exact Or.inl (List.prefix_nil.mp hp)
  · exact Or.inr ⟨d, hd, hp.trans hm⟩

theorem Decided.by {l : List ε} (hl : h.Decided l) : ∃ u, h.DecidedBy u l := by
  rcases hl with rfl | ⟨d, hd, hl⟩
  · exact ⟨0, Or.inl rfl⟩
  · exact ⟨d.term, Or.inr ⟨d, hd, le_rfl, hl⟩⟩

namespace Sound

theorem decision_elected (hs : Sound Q h) {d : Decision ν τ} (hd : d ∈ h.decisions) :
    h.Elected d.term ∧ d.index ≤ (h.leaderLog d.term).length := by
  obtain ⟨hq, hacks⟩ := hs.decision_quorum d hd
  obtain ⟨v, hv, -⟩ := Q.meet hq hq
  exact hs.ack_elected v _ _ (hacks v hv)

/-- Whoever leads in the deciding term or a later one holds what was decided. -/
theorem decision_held (hs : Sound Q h) {d : Decision ν τ} (hd : d ∈ h.decisions) {u : τ}
    (hu : h.Elected u) (hdu : d.term ≤ u) : h.Holds d.term d.index (h.leaderLog u) := by
  rcases hdu.lt_or_eq with hlt | heq
  · obtain ⟨hq, hacks⟩ := hs.decision_quorum d hd
    obtain ⟨x, hk, hx, hxt⟩ := hs.decision_stamp d hd
    obtain ⟨e, he, rfl⟩ := hu
    exact hs.complete hq hacks hk hx hxt e he hlt
  · rw [← heq]
    exact List.take_prefix _ _

theorem decidedBy_held (hs : Sound Q h) {u w : τ} {l : List ε} (hl : h.DecidedBy u l)
    (hw : h.Elected w) (huw : u ≤ w) : l <+: h.leaderLog w := by
  rcases hl with rfl | ⟨d, hd, hdu, hl⟩
  · exact List.nil_prefix
  · exact hl.trans (hs.decision_held hd hw (hdu.trans huw))

/-- **State-machine safety.**  Of two decided prefixes one extends the other. -/
theorem decided_comparable (hs : Sound Q h) {l m : List ε} (hl : h.Decided l)
    (hm : h.Decided m) : l <+: m ∨ m <+: l := by
  rcases hl with rfl | ⟨d, hd, hl⟩
  · exact Or.inl List.nil_prefix
  rcases hm with rfl | ⟨d', hd', hm⟩
  · exact Or.inr List.nil_prefix
  rcases le_total d.term d'.term with hle | hle
  · exact List.prefix_or_prefix_of_prefix
      (hl.trans (hs.decision_held hd (hs.decision_elected hd').1 hle))
      (hm.trans (List.take_prefix _ _))
  · exact List.prefix_or_prefix_of_prefix (hl.trans (List.take_prefix _ _))
      (hm.trans (hs.decision_held hd' (hs.decision_elected hd).1 hle))

theorem decided_traced (hs : Sound Q h) {l : List ε} (hl : h.Decided l) : h.Traced l := by
  rcases hl with rfl | ⟨d, -, hl⟩
  · exact Traced.nil
  · exact ((hs.leader_traced d.term).take d.index).of_isPrefix hl

end Sound

/-! ## 6. Histories that go on -/

/-- `h'` continues `h`: nothing is forgotten, and leaders only append entries of their term. -/
structure Extends (h h' : History ν ε τ) : Prop where
  elections : h.elections <:+ h'.elections
  ballots : h.ballots ⊆ h'.ballots
  acks : h.acks ⊆ h'.acks
  decisions : h.decisions ⊆ h'.decisions
  leaderLog : ∀ t, h.Elected t →
    ∃ own, h'.leaderLog t = h.leaderLog t ++ own ∧ ∀ x ∈ own, stamp x = t

namespace Extends

variable {h' h'' : History ν ε τ}

theorem refl (h : History ν ε τ) : Extends h h :=
  ⟨List.suffix_refl _, subset_rfl, subset_rfl, subset_rfl, fun t _ => ⟨[], by simp, by simp⟩⟩

theorem elected (hx : Extends h h') {t : τ} : h.Elected t → h'.Elected t
  | ⟨e, he, ht⟩ => ⟨e, hx.elections.subset he, ht⟩

theorem trans (hx : Extends h h') (hx' : Extends h' h'') : Extends h h'' := by
  refine ⟨hx.elections.trans hx'.elections, hx.ballots.trans hx'.ballots, hx.acks.trans hx'.acks,
    hx.decisions.trans hx'.decisions, ?_⟩
  intro t ht
  obtain ⟨own, hown, hst⟩ := hx.leaderLog t ht
  obtain ⟨own', hown', hst'⟩ := hx'.leaderLog t (hx.elected ht)
  refine ⟨own ++ own', by rw [hown', hown, List.append_assoc], ?_⟩
  intro x hxm
  rcases List.mem_append.mp hxm with hm | hm
  · exact hst x hm
  · exact hst' x hm

theorem leader_isPrefix (hx : Extends h h') {t : τ} (ht : h.Elected t) :
    h.leaderLog t <+: h'.leaderLog t := by
  obtain ⟨own, hown, -⟩ := hx.leaderLog t ht
  exact hown ▸ List.prefix_append _ _

theorem traced (hx : Extends h h') {l : List ε} (hl : h.Traced l) : h'.Traced l := by
  intro l' x hp
  obtain ⟨ht, hp'⟩ := hl l' x hp
  exact ⟨hx.elected ht, hp'.trans (hx.leader_isPrefix ht)⟩

theorem take_leader (hx : Extends h h') {t : τ} (ht : h.Elected t) {k : Nat}
    (hk : k ≤ (h.leaderLog t).length) : (h'.leaderLog t).take k = (h.leaderLog t).take k :=
  take_eq_of_isPrefix (hx.leader_isPrefix ht) hk

theorem holds_iff (hx : Extends h h') {t : τ} (ht : h.Elected t) {k : Nat}
    (hk : k ≤ (h.leaderLog t).length) {l : List ε} : h'.Holds t k l ↔ h.Holds t k l := by
  rw [Holds, Holds, hx.take_leader ht hk]

/-- What a later leader does not hold it never will: it only appends entries of its own term. -/
theorem lostBy (hx : Extends h h') (hs : Sound Q h) {ts : Set τ} (hts : ∀ u ∈ ts, h.Elected u)
    {t : τ} {k : Nat} (ht : h.Elected t) (hk : k ≤ (h.leaderLog t).length)
    (hl : h.LostBy ts t k) : h'.LostBy ts t k := by
  obtain ⟨u, hu, htu, hnot⟩ := hl
  refine ⟨u, hu, htu, fun hheld => hnot ?_⟩
  rw [hx.holds_iff ht hk] at hheld
  obtain ⟨own, hown, hst⟩ := hx.leaderLog u (hts u hu)
  rw [Holds, hown] at hheld
  rcases prefix_append_cases hheld with hp | ⟨q, hq, hqo, heq⟩
  · exact hp
  · obtain ⟨x, hxq⟩ := List.exists_mem_of_ne_nil q hq
    have hxt : stamp x ≤ t := hs.take_stamps ht k x (by rw [heq]; simp [hxq])
    rw [hst x (hqo.subset hxq)] at hxt
    exact absurd hxt (not_le.mpr htu)

theorem decidedBy (hx : Extends h h') (hs : Sound Q h) {u : τ} {l : List ε} :
    h.DecidedBy u l → h'.DecidedBy u l
  | Or.inl hl => Or.inl hl
  | Or.inr ⟨d, hd, hdu, hl⟩ => by
    obtain ⟨ht, hk⟩ := hs.decision_elected hd
    exact Or.inr ⟨d, hx.decisions hd, hdu, by rwa [hx.take_leader ht hk]⟩

theorem decided (hx : Extends h h') (hs : Sound Q h) {l : List ε} (hl : h.Decided l) :
    h'.Decided l := by
  obtain ⟨u, hu⟩ := hl.by
  exact (hx.decidedBy hs hu).decided

/-- What is decided in an older term was in a leader's log from the start, also if it was decided
later. -/
theorem decided_from_start (hx : Extends h h') (hs : Sound Q h') {t u : τ} (hu : h.Elected u)
    (htu : t < u) {l : List ε} (hl : h'.DecidedBy t l) : l <+: h.leaderLog u := by
  obtain ⟨own, hown, hstamp⟩ := hx.leaderLog u hu
  have hheld := hs.decidedBy_held hl (hx.elected hu) htu.le
  rw [hown] at hheld
  rcases prefix_append_cases hheld with hp | ⟨q, hq, hqo, rfl⟩
  · exact hp
  · -- an entry of the new term would have been decided in an older one
    obtain ⟨x, hx⟩ := List.exists_mem_of_ne_nil q hq
    rcases hl with hnil | ⟨d, hd, hdt, hl⟩
    · exact absurd (List.append_eq_nil_iff.mp hnil).2 hq
    · have hxl : x ∈ h'.leaderLog d.term :=
        List.mem_of_mem_take (hl.subset (List.mem_append_right _ hx))
      have hxd := hs.leader_stamps (hs.decision_elected hd).1 x hxl
      rw [hstamp x (hqo.subset hx)] at hxd
      exact absurd (hxd.trans hdt) htu.not_ge

end Extends

end History

end Consensus
