/-
# The command processor delivers each command once

`start` and `stop` are meant to leave at most one worker on the queue: `stop` puts a sentinel behind
the commands that have been accepted and joins the worker that takes it.  It does not hold the
lifecycle lock while it joins.

* `commands_delivered` -- as long as no `start` and no `stop` begins before an earlier `stop` has
  returned, there is one worker at most, and every command is passed on once, in order, in batches
  that are not too long, its future gets its own result, and is resolved when `stop` returns.
* `commands_not_delivered` -- a second `stop` returns at once, with commands still in the queue.
-/
import PyRaftKv.Raft.CommandProcessor

namespace PyRaftKv

open CommandProcessor

variable {γ ε β : Type}

/-! ## 1. The statement -/

/-- The futures of the batches passed on, one batch after the other. -/
def CommandProcessor.passedOn (p : CommandProcessor γ ε β) : List Nat := p.passed.flatMap (·.2)

/-- What the node's answers resolve the futures with. -/
def CommandProcessor.results (p : CommandProcessor γ ε β) : List (Nat × Except ε β) :=
  p.answers.flatMap fun a => resolutions a.1 a.2

/-- **Every command is delivered once, with its own result.** -/
structure Delivered (p : CommandProcessor γ ε β) : Prop where
  /-- The commands passed on, held by a worker and in the queue are the accepted ones, each one once
  and in order. -/
  once : p.passedOn ++ p.workers.flatMap (·.held) ++ p.queued = List.range p.accepted.length
  batches : ∀ b ∈ p.passed, b.2 ≠ [] ∧ b.2.length ≤ p.maxBatchSize
  /-- Each batch passed on is answered once, or is the one that the node works on. -/
  answered : p.answers.flatMap (·.1) ++ p.workers.flatMap (·.asked) = p.passedOn
  /-- The futures resolved and those still owed are what the answers resolve, each one once. -/
  resolved : p.resolved ++ p.workers.flatMap (·.owed) = p.results
  resolvedOnce : (p.results.map (·.1)).Nodup
  /-- A command in the queue has a worker. -/
  served : p.queued ≠ [] → ∃ (w : Nat) (y : Worker ε β), p.workers[w]? = some y ∧ y ≠ .done
  stopped : ∀ n ∈ p.returned, ∀ i < n, ∃ r, (i, r) ∈ p.resolved

/-- The condition: no call of `start` and no call of `stop` begins before every earlier call of
`stop` has returned. -/
def ProcessorStep.Serial (p : CommandProcessor γ ε β) : ProcessorStep γ ε β → Prop
  | .start => p.putting = none ∧ p.joining = []
  | .stop => p.putting = none ∧ p.joining = []
  | _ => True

/-- The runs of a new processor whose steps all meet the condition `P`. -/
inductive ProcessorRuns (P : CommandProcessor γ ε β → ProcessorStep γ ε β → Prop) :
    CommandProcessor γ ε β → Prop
  | start {maxQueueSize maxBatchSize : Nat} (h : 1 ≤ maxBatchSize) :
      ProcessorRuns P { maxQueueSize, maxBatchSize }
  | step {p p' : CommandProcessor γ ε β} {s : ProcessorStep γ ε β} (hrun : ProcessorRuns P p)
      (hs : P p s) (hstep : p.step s = some p') : ProcessorRuns P p'

/-! ## 2. One worker -/

/-- The worker has seen the sentinel. -/
def Worker.stopping : Worker ε β → Bool
  | .collected _ stopping => stopping
  | .submitting _ stopping => stopping
  | .resolving _ stopping => stopping
  | .done => true
  | _ => false

/-- What the worker that runs, if one does, adds to a list. -/
def ofWorker {α : Type} (f : Worker ε β → List α) (x : Option (Worker ε β)) : List α :=
  x.toList.flatMap f

/-- The phases between a `start` and the return of its `stop`, with the worker that runs: `k` others
have ended. -/
inductive Phase (p : CommandProcessor γ ε β) : Nat → Option (Worker ε β) → Prop
  | stopped {k : Nat} (hthread : p.thread = none) (hputting : p.putting = none)
      (hjoining : p.joining = []) (hqueue : p.queue = []) : Phase p k none
  | running {k : Nat} {y : Worker ε β} (hy : y.stopping = false) (hthread : p.thread = some k)
      (hputting : p.putting = none) (hjoining : p.joining = []) (hqueue : none ∉ p.queue) :
      Phase p k (some y)
  | putting {k : Nat} {y : Worker ε β} (hy : y.stopping = false) (hthread : p.thread = none)
      (hputting : p.putting = some (k, p.accepted.length)) (hjoining : p.joining = [])
      (hqueue : none ∉ p.queue) : Phase p k (some y)
  | joining {k : Nat} {y : Worker ε β} {q : List (Option Nat)} (hy : y.stopping = false)
      (hthread : p.thread = none) (hputting : p.putting = none)
      (hjoining : p.joining = [(k, p.accepted.length)]) (hqueue : p.queue = q ++ [none])
      (hq : none ∉ q) : Phase p k (some y)
  | ending {k : Nat} {y : Worker ε β} (hy : y.stopping = true) (hdone : y ≠ .done)
      (hthread : p.thread = none) (hputting : p.putting = none)
      (hjoining : p.joining = [(k, p.accepted.length)]) (hqueue : p.queue = []) :
      Phase p k (some y)
  | ended {k : Nat} (hthread : p.thread = none) (hputting : p.putting = none)
      (hjoining : p.joining = [(k, p.accepted.length)]) (hqueue : p.queue = []) :
      Phase p (k + 1) none

/-- The invariant of a run with one worker. -/
structure ProcessorSound (p : CommandProcessor γ ε β) (k : Nat) (x : Option (Worker ε β)) :
    Prop where
  workers : p.workers = List.replicate k .done ++ x.toList
  phase : Phase p k x
  size : 1 ≤ p.maxBatchSize
  once : p.passedOn ++ ofWorker (·.held) x ++ p.queued = List.range p.accepted.length
  batches : ∀ b ∈ p.passed, b.2 ≠ [] ∧ b.2.length ≤ p.maxBatchSize
  batch : ∀ y, x = some y → (∀ b, y = .collecting b → b ≠ [] ∧ b.length ≤ p.maxBatchSize) ∧
    ∀ b s, y = .collected b s → b ≠ [] ∧ b.length ≤ p.maxBatchSize
  answered : p.answers.flatMap (·.1) ++ ofWorker (·.asked) x = p.passedOn
  resolved : p.resolved ++ ofWorker (·.owed) x = p.results
  fits : ∀ a ∈ p.answers, Fits a.1 a.2
  stopped : ∀ n ∈ p.returned, ∀ i < n, ∃ r, (i, r) ∈ p.resolved

@[simp] theorem ofWorker_none {α : Type} (f : Worker ε β → List α) : ofWorker f none = [] := rfl

@[simp] theorem ofWorker_some {α : Type} (f : Worker ε β → List α) (y : Worker ε β) :
    ofWorker f (some y) = f y := by
  simp [ofWorker]

theorem flatMap_replicate_done {α : Type} {f : Worker ε β → List α} (hf : f .done = []) (k : Nat) :
    (List.replicate k (Worker.done : Worker ε β)).flatMap f = [] := by
  rw [List.flatMap_eq_nil_iff]
  intro y hy
  rw [List.eq_of_mem_replicate hy, hf]

theorem resolutions_fst {batch : List Nat} {answer : BatchAnswer ε β} (h : Fits batch answer) :
    (resolutions batch answer).map (·.1) = batch := by
  cases answer with
  | ok results =>
    unfold resolutions
    exact List.map_fst_zip (by simp [show results.length = batch.length from h])
  | error e =>
    unfold resolutions
    rw [List.map_map]
    exact List.map_id _

namespace ProcessorSound

variable {p : CommandProcessor γ ε β} {k : Nat} {x : Option (Worker ε β)}

theorem flatMap_workers (hs : ProcessorSound p k x) {α : Type} {f : Worker ε β → List α}
    (hf : f .done = []) : p.workers.flatMap f = ofWorker f x := by
  rw [hs.workers, List.flatMap_append, flatMap_replicate_done hf]
  rfl

theorem results_fst (hs : ProcessorSound p k x) :
    p.results.map (·.1) = p.answers.flatMap (·.1) := by
  unfold results
  rw [List.map_flatMap]
  have hfits := hs.fits
  generalize p.answers = answers at hfits
  induction answers with
  | nil => rfl
  | cons a answers ih =>
    rw [List.flatMap_cons, List.flatMap_cons, resolutions_fst (hfits a List.mem_cons_self),
      ih fun b hb => hfits b (List.mem_cons_of_mem a hb)]

theorem delivered (hs : ProcessorSound p k x) : Delivered p := by
  have honce := hs.once
  have hnodup : (p.passedOn ++ ofWorker (·.held) x ++ p.queued).Nodup := by
    rw [honce]
    exact List.nodup_range
  refine ⟨?_, hs.batches, ?_, ?_, ?_, ?_, hs.stopped⟩
  · rw [hs.flatMap_workers rfl]
    exact honce
  · rw [hs.flatMap_workers rfl]
    exact hs.answered
  · rw [hs.flatMap_workers rfl]
    exact hs.resolved
  · have hpassed := (List.nodup_append.mp (List.nodup_append.mp hnodup).1).1
    rw [← hs.answered] at hpassed
    rw [hs.results_fst]
    exact (List.nodup_append.mp hpassed).1
  · intro hq
    have halive : ∀ y, x = some y → y ≠ .done →
        ∃ (w : Nat) (y : Worker ε β), p.workers[w]? = some y ∧ y ≠ .done := by
      rintro y rfl hy
      refine ⟨k, y, ?_, hy⟩
      rw [hs.workers, List.getElem?_append_right (by simp)]
      simp
    have hne : ∀ y : Worker ε β, y.stopping = false → y ≠ .done := by
      rintro y hy rfl
      cases hy
    cases hs.phase with
    | stopped _ _ _ hqueue => exact absurd (by rw [queued, hqueue]; rfl) hq
    | running hy => exact halive _ rfl (hne _ hy)
    | putting hy => exact halive _ rfl (hne _ hy)
    | joining hy => exact halive _ rfl (hne _ hy)
    | ending _ _ _ _ _ hqueue => exact absurd (by rw [queued, hqueue]; rfl) hq
    | ended _ _ _ hqueue => exact absurd (by rw [queued, hqueue]; rfl) hq

/-- Only the worker that runs is not done. -/
theorem worker (hs : ProcessorSound p k x) {w : Nat} {y : Worker ε β} (hy : p.workers[w]? = some y)
    (hne : y ≠ .done) : w = k ∧ x = some y := by
  rw [hs.workers] at hy
  rcases Nat.lt_or_ge w k with hlt | hge
  · rw [List.getElem?_append_left (by simpa using hlt), List.getElem?_replicate, if_pos hlt] at hy
    exact absurd (Option.some.inj hy).symm hne
  · rw [List.getElem?_append_right (by simpa using hge), List.length_replicate] at hy
    cases x with
    | none => cases hy
    | some z =>
      obtain ⟨hlt, hz⟩ := List.getElem?_eq_some_iff.mp hy
      have hw : w - k = 0 := by
        simp at hlt
        omega
      exact ⟨by omega, by rw [← hz]; simp [hw]⟩

theorem set_worker (hs : ProcessorSound p k x) {y z : Worker ε β} (hx : x = some y) :
    p.workers.set k z = List.replicate k .done ++ [z] := by
  rw [hs.workers, hx, List.set_append_right _ _ (by simp)]
  simp

end ProcessorSound

/-- The worker that runs goes from `y` to `z`, and takes nothing from the queue. -/
theorem Phase.move {p p' : CommandProcessor γ ε β} {k : Nat} {y z : Worker ε β}
    (h : Phase p k (some y)) (hz : z ≠ .done) (hsame : z.stopping = y.stopping)
    (hthread : p'.thread = p.thread) (hputting : p'.putting = p.putting)
    (hjoining : p'.joining = p.joining) (hqueue : p'.queue = p.queue)
    (haccepted : p'.accepted = p.accepted) : Phase p' k (some z) := by
  cases h with
  | running h ht hp hj hq =>
    exact .running (hsame.trans h) (hthread.trans ht) (hputting.trans hp) (hjoining.trans hj)
      (hqueue ▸ hq)
  | putting h ht hp hj hq =>
    exact .putting (hsame.trans h) (hthread.trans ht) (hputting.trans (haccepted ▸ hp))
      (hjoining.trans hj) (hqueue ▸ hq)
  | joining h ht hp hj hq hq' =>
    exact .joining (hsame.trans h) (hthread.trans ht) (hputting.trans hp)
      (hjoining.trans (haccepted ▸ hj)) (hqueue.trans hq) hq'
  | ending h _ ht hp hj hq =>
    exact .ending (hsame.trans h) hz (hthread.trans ht) (hputting.trans hp)
      (hjoining.trans (haccepted ▸ hj)) (hqueue.trans hq)

/-! ## 3. What each step preserves -/

namespace ProcessorSound

variable {p : CommandProcessor γ ε β} {k : Nat} {x : Option (Worker ε β)}

/-- Where no worker runs and the queue is empty, every future is resolved. -/
theorem all_resolved (hs : ProcessorSound p k none) (hqueue : p.queue = []) :
    ∀ i < p.accepted.length, ∃ r, (i, r) ∈ p.resolved := by
  intro i hi
  have honce := hs.once
  have hanswered := hs.answered
  have hresolved := hs.resolved
  simp only [ofWorker_none, List.append_nil, queued, hqueue, List.filterMap_nil]
    at honce hanswered hresolved
  have hmem : i ∈ p.results.map (·.1) := by
    rw [hs.results_fst, hanswered, honce]
    exact List.mem_range.mpr hi
  obtain ⟨⟨j, r⟩, hr, rfl⟩ := List.mem_map.mp hmem
  exact ⟨r, hresolved ▸ hr⟩

theorem start (hs : ProcessorSound p k x) (hputting : p.putting = none) (hjoining : p.joining = [])
    {p' : CommandProcessor γ ε β} (hstep : p.step .start = some p') :
    ∃ k' x', ProcessorSound p' k' x' := by
  simp only [step, hputting, Option.isSome_none, Bool.false_eq_true, if_false] at hstep
  cases hs.phase with
  | running _ hthread =>
    rw [hthread] at hstep
    cases hstep
    exact ⟨_, _, hs⟩
  | stopped hthread _ _ hqueue =>
    rw [hthread] at hstep
    cases hstep
    have hlen : p.workers.length = k := by rw [hs.workers]; simp
    refine ⟨k, some .waiting, ?_, ?_, hs.size, ?_, hs.batches, ?_, ?_, ?_, hs.fits, hs.stopped⟩
    · simp [hs.workers]
    · exact .running rfl (congrArg some hlen) rfl hjoining (by rw [hqueue]; exact List.not_mem_nil)
    · simpa [Worker.held, passedOn, queued] using hs.once
    · rintro y ⟨⟩
      exact ⟨fun b hb => (nomatch hb), fun b s hb => nomatch hb⟩
    · simpa [Worker.asked, passedOn] using hs.answered
    · simpa [Worker.owed, results] using hs.resolved
  | putting _ _ h => rw [hputting] at h; cases h
  | joining _ _ _ h => rw [hjoining] at h; cases h
  | ending _ _ _ _ h => rw [hjoining] at h; cases h
  | ended _ _ h => rw [hjoining] at h; cases h

theorem submit (hs : ProcessorSound p k x) {command : γ} {p' : CommandProcessor γ ε β}
    (hstep : p.step (.submit command) = some p') : ProcessorSound p' k x := by
  simp only [step] at hstep
  split at hstep
  · cases hstep
  · split at hstep
    · cases hstep
      exact hs
    · rename_i hputting hopen
      cases hstep
      have hthread : p.thread ≠ none := by
        intro h
        simp [h] at hopen
      refine ⟨hs.workers, ?_, hs.size, ?_, hs.batches, hs.batch, hs.answered, hs.resolved, hs.fits,
        hs.stopped⟩
      · cases hs.phase with
        | running hy ht hp hj hq =>
          refine .running hy ht hp hj ?_
          intro hmem
          rcases List.mem_append.mp hmem with h | h
          · exact hq h
          · cases List.mem_singleton.mp h
        | _ => exact absurd ‹p.thread = none› hthread
      · have honce := hs.once
        simp only [queued, List.filterMap_append, List.length_append, List.length_singleton,
          List.range_succ] at honce ⊢
        rw [← honce, ← List.append_assoc]
        rfl

theorem stop (hs : ProcessorSound p k x) (hputting : p.putting = none) (hjoining : p.joining = [])
    {p' : CommandProcessor γ ε β} (hstep : p.step .stop = some p') : ProcessorSound p' k x := by
  simp only [step, hputting, Option.isSome_none, Bool.false_eq_true, if_false] at hstep
  cases hs.phase with
  | running hy hthread _ hj hq =>
    rw [hthread] at hstep
    cases hstep
    exact ⟨hs.workers, .putting hy rfl rfl hj hq, hs.size, hs.once, hs.batches, hs.batch,
      hs.answered, hs.resolved, hs.fits, hs.stopped⟩
  | stopped hthread _ hj hqueue =>
    rw [hthread] at hstep
    cases hstep
    refine ⟨hs.workers, .stopped rfl rfl hj hqueue, hs.size, hs.once, hs.batches, hs.batch,
      hs.answered, hs.resolved, hs.fits, ?_⟩
    intro n hn
    rcases List.mem_append.mp hn with hn | hn
    · exact hs.stopped n hn
    · rw [List.mem_singleton.mp hn]
      exact hs.all_resolved hqueue
  | putting _ _ h => rw [hputting] at h; cases h
  | joining _ _ _ h => rw [hjoining] at h; cases h
  | ending _ _ _ _ h => rw [hjoining] at h; cases h
  | ended _ _ h => rw [hjoining] at h; cases h

theorem putSentinel (hs : ProcessorSound p k x) {p' : CommandProcessor γ ε β}
    (hstep : p.step .putSentinel = some p') : ProcessorSound p' k x := by
  simp only [step] at hstep
  cases hs.phase with
  | putting hy ht hp hj hq =>
    rw [hp] at hstep
    simp only at hstep
    split at hstep
    · cases hstep
    · cases hstep
      refine ⟨hs.workers, .joining hy ht rfl (by rw [hj]; rfl) rfl hq, hs.size, ?_, hs.batches,
        hs.batch, hs.answered, hs.resolved, hs.fits, hs.stopped⟩
      simpa [queued, passedOn] using hs.once
  | _ =>
    rw [‹p.putting = none›] at hstep
    cases hstep

theorem joined (hs : ProcessorSound p k x) {w n : Nat} {p' : CommandProcessor γ ε β}
    (hstep : p.step (.joined w n) = some p') : ProcessorSound p' k x := by
  simp only [step] at hstep
  split at hstep
  · rename_i hdone
    split at hstep
    · rename_i hmem
      cases hstep
      have hrunning : ∀ {y : Worker ε β}, x = some y → y ≠ .done →
        p.joining = [(k, p.accepted.length)] →
          False := by
        rintro y rfl hy hj
        rw [hj] at hmem
        cases List.mem_singleton.mp hmem
        rw [hs.workers, List.getElem?_append_right (by simp)] at hdone
        simp at hdone
        exact hy hdone
      have hne : ∀ {y : Worker ε β}, y.stopping = false → y ≠ .done := by
        rintro y hy rfl
        cases hy
      cases hs.phase with
      | stopped _ _ hj => rw [hj] at hmem; cases hmem
      | running _ _ _ hj => rw [hj] at hmem; cases hmem
      | putting _ _ _ hj => rw [hj] at hmem; cases hmem
      | joining hy _ _ hj => exact (hrunning rfl (hne hy) hj).elim
      | ending _ hy _ _ hj => exact (hrunning rfl hy hj).elim
      | ended ht hp hj hq =>
        rw [hj] at hmem
        cases List.mem_singleton.mp hmem
        refine ⟨hs.workers, .stopped ht hp (by simp [hj]) hq, hs.size, hs.once, hs.batches,
          hs.batch,
          hs.answered, hs.resolved, hs.fits, ?_⟩
        intro m hm
        rcases List.mem_append.mp hm with hm | hm
        · exact hs.stopped m hm
        · rw [List.mem_singleton.mp hm]
          exact hs.all_resolved hq
    · cases hstep
  · cases hstep

theorem collected (hs : ProcessorSound p k x) {w : Nat} {p' : CommandProcessor γ ε β}
    (hstep : p.step (.collected w) = some p') : ∃ x', ProcessorSound p' k x' := by
  simp only [step] at hstep
  split at hstep
  · rename_i batch hw
    obtain ⟨rfl, rfl⟩ := hs.worker hw (by rintro ⟨⟩)
    cases hstep
    refine ⟨some (.collected batch false), hs.set_worker rfl,
      hs.phase.move (by rintro ⟨⟩) rfl rfl rfl rfl rfl rfl, hs.size, ?_, hs.batches, ?_, ?_, ?_,
        hs.fits,
      hs.stopped⟩
    · simpa [Worker.held, passedOn, queued, setWorker] using hs.once
    · rintro y ⟨⟩
      refine ⟨fun b hb => (nomatch hb), ?_⟩
      rintro b s ⟨⟩
      exact (hs.batch _ rfl).1 _ rfl
    · simpa [Worker.asked, passedOn, setWorker] using hs.answered
    · simpa [Worker.owed, results, setWorker] using hs.resolved
  · cases hstep

theorem pass (hs : ProcessorSound p k x) {w : Nat} {p' : CommandProcessor γ ε β}
    (hstep : p.step (.pass w) = some p') : ∃ x', ProcessorSound p' k x' := by
  simp only [step] at hstep
  split at hstep
  · rename_i batch stopping hw
    obtain ⟨rfl, rfl⟩ := hs.worker hw (by rintro ⟨⟩)
    cases hstep
    refine ⟨some (.submitting batch stopping), hs.set_worker rfl,
      hs.phase.move (by rintro ⟨⟩) rfl rfl rfl rfl rfl rfl, hs.size, ?_, ?_, ?_, ?_, ?_, hs.fits,
        hs.stopped⟩
    · simpa [Worker.held, passedOn, queued, setWorker] using hs.once
    · intro b hb
      rcases List.mem_append.mp hb with hb | hb
      · exact hs.batches b hb
      · rw [List.mem_singleton.mp hb]
        exact (hs.batch _ rfl).2 batch stopping rfl
    · rintro y ⟨⟩
      exact ⟨fun b hb => (nomatch hb), fun b s hb => nomatch hb⟩
    · have hanswered := hs.answered
      simp only [ofWorker_some, Worker.asked, List.append_nil, passedOn] at hanswered
      simp [Worker.asked, passedOn, setWorker, hanswered]
    · simpa [Worker.owed, results, setWorker] using hs.resolved
  · cases hstep

theorem answer (hs : ProcessorSound p k x) {w : Nat} {a : BatchAnswer ε β}
    {p' : CommandProcessor γ ε β} (hstep : p.step (.answer w a) = some p') :
    ∃ x', ProcessorSound p' k x' := by
  simp only [step] at hstep
  split at hstep
  · rename_i batch stopping hw
    split at hstep
    · rename_i hfits
      obtain ⟨rfl, rfl⟩ := hs.worker hw (by rintro ⟨⟩)
      cases hstep
      refine ⟨some (.resolving (resolutions batch a) stopping), hs.set_worker rfl,
        hs.phase.move (by rintro ⟨⟩) rfl rfl rfl rfl rfl rfl, hs.size, ?_, hs.batches, ?_, ?_, ?_,
          ?_, hs.stopped⟩
      · simpa [Worker.held, passedOn, queued, setWorker] using hs.once
      · rintro y ⟨⟩
        exact ⟨fun b hb => (nomatch hb), fun b s hb => nomatch hb⟩
      · have hanswered := hs.answered
        simp only [ofWorker_some, Worker.asked, passedOn] at hanswered
        simp [Worker.asked, passedOn, setWorker, ← hanswered]
      · have hresolved := hs.resolved
        simp only [ofWorker_some, Worker.owed, List.append_nil, results] at hresolved
        simp [Worker.owed, results, setWorker, hresolved]
      · intro b hb
        rcases List.mem_append.mp hb with hb | hb
        · exact hs.fits b hb
        · rw [List.mem_singleton.mp hb]
          exact hfits
    · cases hstep
  · cases hstep

theorem resolve (hs : ProcessorSound p k x) {w : Nat} {p' : CommandProcessor γ ε β}
    (hstep : p.step (.resolve w) = some p') : ∃ k' x', ProcessorSound p' k' x' := by
  simp only [step] at hstep
  split at hstep
  · rename_i stopping hw
    obtain ⟨rfl, rfl⟩ := hs.worker hw (by rintro ⟨⟩)
    cases hstep
    have honce : p.passedOn ++ [] ++ p.queued = List.range p.accepted.length := by
      simpa [Worker.held, passedOn, queued, setWorker] using hs.once
    have hanswered : p.answers.flatMap (·.1) ++ [] = p.passedOn := by
      simpa [Worker.asked, passedOn, setWorker] using hs.answered
    have hresolved : p.resolved ++ [] = p.results := by
      simpa [Worker.owed, results, setWorker] using hs.resolved
    cases stopping with
    | false =>
      refine ⟨w, some .waiting, hs.set_worker rfl,
        hs.phase.move (by rintro ⟨⟩) rfl rfl rfl rfl rfl rfl, hs.size,
        by simpa [Worker.held, passedOn, queued, setWorker] using honce, hs.batches, ?_,
        by simpa [Worker.asked, passedOn, setWorker] using hanswered,
        by simpa [Worker.owed, results, setWorker] using hresolved, hs.fits, hs.stopped⟩
      rintro y ⟨⟩
      exact ⟨fun b hb => (nomatch hb), fun b s hb => nomatch hb⟩
    | true =>
      refine ⟨w + 1, none, ?_, ?_, hs.size, honce, hs.batches, fun y hy => (nomatch hy), hanswered,
        hresolved, hs.fits, hs.stopped⟩
      · rw [List.replicate_succ', Option.toList_none, List.append_nil]
        exact hs.set_worker rfl
      · cases hs.phase with
        | ending _ _ ht hp hj hq => exact .ended ht hp hj hq
        | running h => cases h
        | putting h => cases h
        | joining h => cases h
  · rename_i r rest stopping hw
    obtain ⟨rfl, rfl⟩ := hs.worker hw (by rintro ⟨⟩)
    cases hstep
    refine ⟨w, some (.resolving rest stopping), hs.set_worker rfl,
      hs.phase.move (by rintro ⟨⟩) rfl rfl rfl rfl rfl rfl, hs.size, ?_, hs.batches, ?_, ?_, ?_,
        hs.fits, ?_⟩
    · simpa [Worker.held, passedOn, queued, setWorker] using hs.once
    · rintro y ⟨⟩
      exact ⟨fun b hb => (nomatch hb), fun b s hb => nomatch hb⟩
    · simpa [Worker.asked, passedOn, setWorker] using hs.answered
    · have hresolved := hs.resolved
      simp only [ofWorker_some, Worker.owed, results] at hresolved
      simpa [Worker.owed, results, setWorker] using hresolved
    · intro n hn i hi
      obtain ⟨r', hr'⟩ := hs.stopped n hn i hi
      exact ⟨r', List.mem_append_left _ hr'⟩
  · cases hstep

end ProcessorSound

/-- A command is taken from the queue. -/
theorem Phase.takeCommand {p p' : CommandProcessor γ ε β} {k future : Nat} {y z : Worker ε β}
    {queue : List (Option Nat)} (h : Phase p k (some y)) (hitems : p.queue = some future :: queue)
    (hz : z.stopping = false) (hthread : p'.thread = p.thread) (hputting : p'.putting = p.putting)
    (hjoining : p'.joining = p.joining) (hqueue : p'.queue = queue)
    (haccepted : p'.accepted = p.accepted) : Phase p' k (some z) := by
  cases h with
  | running h ht hp hj hq =>
    refine .running hz (hthread.trans ht) (hputting.trans hp) (hjoining.trans hj) ?_
    rw [hqueue]
    exact fun hmem => hq (hitems ▸ List.mem_cons_of_mem _ hmem)
  | putting h ht hp hj hq =>
    refine .putting hz (hthread.trans ht) (hputting.trans (haccepted ▸ hp)) (hjoining.trans hj) ?_
    rw [hqueue]
    exact fun hmem => hq (hitems ▸ List.mem_cons_of_mem _ hmem)
  | @joining _ _ q h ht hp hj hq hq' =>
    cases q with
    | nil =>
      rw [hitems] at hq
      cases hq
    | cons item q =>
      rw [hitems] at hq
      obtain ⟨-, rfl⟩ := List.cons.inj hq
      exact .joining hz (hthread.trans ht) (hputting.trans hp) (hjoining.trans (haccepted ▸ hj))
        hqueue fun hmem => hq' (List.mem_cons_of_mem _ hmem)
  | ending _ _ _ _ _ hq =>
    rw [hitems] at hq
    cases hq

/-- The sentinel is taken from the queue: it was the last item. -/
theorem Phase.takeSentinel {p : CommandProcessor γ ε β} {k : Nat} {y : Worker ε β}
    {queue : List (Option Nat)} (h : Phase p k (some y)) (hitems : p.queue = none :: queue) :
    queue = [] ∧ p.thread = none ∧ p.putting = none ∧ p.joining = [(k, p.accepted.length)] := by
  cases h with
  | running _ _ _ _ hq => exact absurd (hitems ▸ List.mem_cons_self) hq
  | putting _ _ _ _ hq => exact absurd (hitems ▸ List.mem_cons_self) hq
  | @joining _ _ q _ ht hp hj hq hq' =>
    cases q with
    | nil =>
      rw [hitems] at hq
      exact ⟨(List.cons.inj hq).2, ht, hp, hj⟩
    | cons item q =>
      rw [hitems] at hq
      obtain ⟨rfl, -⟩ := List.cons.inj hq
      exact absurd List.mem_cons_self hq'
  | ending _ _ _ _ _ hq =>
    rw [hitems] at hq
    cases hq

namespace ProcessorSound

variable {p : CommandProcessor γ ε β} {k : Nat} {x : Option (Worker ε β)}

theorem take (hs : ProcessorSound p k x) {w : Nat} {p' : CommandProcessor γ ε β}
    (hstep : p.step (.take w) = some p') : ∃ k' x', ProcessorSound p' k' x' := by
  simp only [step] at hstep
  split at hstep
  · rename_i y hw
    unfold takeItem at hstep
    split at hstep
    · -- the sentinel comes first: the worker ends
      rename_i queue hitems
      obtain ⟨rfl, rfl⟩ := hs.worker hw (by rintro ⟨⟩)
      cases hstep
      obtain ⟨rfl, ht, hp, hj⟩ := hs.phase.takeSentinel hitems
      refine ⟨w + 1, none, ?_, .ended ht hp hj rfl, hs.size, ?_, hs.batches, fun y hy =>
        (nomatch hy),
        ?_, ?_, hs.fits, hs.stopped⟩
      · rw [List.replicate_succ', Option.toList_none, List.append_nil]
        exact hs.set_worker rfl
      · simpa [Worker.held, passedOn, queued, setWorker, hitems] using hs.once
      · simpa [Worker.asked, passedOn, setWorker] using hs.answered
      · simpa [Worker.owed, results, setWorker] using hs.resolved
    · -- a command comes first: it begins a batch
      rename_i future queue hitems
      obtain ⟨rfl, rfl⟩ := hs.worker hw (by rintro ⟨⟩)
      cases hstep
      refine ⟨w, some (.collecting [future]), hs.set_worker rfl,
        hs.phase.takeCommand hitems rfl rfl rfl rfl rfl rfl, hs.size, ?_, hs.batches, ?_, ?_, ?_,
        hs.fits, hs.stopped⟩
      · simpa [Worker.held, passedOn, queued, setWorker, hitems] using hs.once
      · rintro y ⟨⟩
        refine ⟨?_, fun b s hb => nomatch hb⟩
        rintro b ⟨⟩
        exact ⟨List.cons_ne_nil _ _, hs.size⟩
      · simpa [Worker.asked, passedOn, setWorker] using hs.answered
      · simpa [Worker.owed, results, setWorker] using hs.resolved
    · rename_i batch item queue hitems
      obtain ⟨rfl, rfl⟩ := hs.worker hw (by rintro ⟨⟩)
      obtain ⟨hne, -⟩ := (hs.batch _ rfl).1 batch rfl
      split at hstep
      · rename_i hroom
        split at hstep
        · -- the sentinel ends the batch
          cases hstep
          obtain ⟨rfl, ht, hp, hj⟩ := hs.phase.takeSentinel hitems
          refine ⟨w, some (.collected batch true), hs.set_worker rfl,
            .ending rfl (by rintro ⟨⟩) ht hp hj rfl, hs.size, ?_, hs.batches, ?_, ?_, ?_, hs.fits,
            hs.stopped⟩
          · simpa [Worker.held, passedOn, queued, setWorker, hitems] using hs.once
          · rintro y ⟨⟩
            refine ⟨fun b hb => (nomatch hb), ?_⟩
            rintro b s ⟨⟩
            exact ⟨hne, Nat.le_of_lt hroom⟩
          · simpa [Worker.asked, passedOn, setWorker] using hs.answered
          · simpa [Worker.owed, results, setWorker] using hs.resolved
        · -- a command joins the batch
          rename_i future
          cases hstep
          refine ⟨w, some (.collecting (batch ++ [future])), hs.set_worker rfl,
            hs.phase.takeCommand hitems rfl rfl rfl rfl rfl rfl, hs.size, ?_, hs.batches, ?_, ?_,
              ?_,
            hs.fits, hs.stopped⟩
          · simpa [Worker.held, passedOn, queued, setWorker, hitems] using hs.once
          · rintro y ⟨⟩
            refine ⟨?_, fun b s hb => nomatch hb⟩
            rintro b ⟨⟩
            exact ⟨by simp, by rw [List.length_append]; exact hroom⟩
          · simpa [Worker.asked, passedOn, setWorker] using hs.answered
          · simpa [Worker.owed, results, setWorker] using hs.resolved
      · cases hstep
    · cases hstep
  · cases hstep

theorem step {s : ProcessorStep γ ε β} {p' : CommandProcessor γ ε β} (hs : ProcessorSound p k x)
    (hserial : s.Serial p) (hstep : p.step s = some p') : ∃ k' x', ProcessorSound p' k' x' := by
  cases s with
  | start => exact hs.start hserial.1 hserial.2 hstep
  | submit command => exact ⟨k, x, hs.submit hstep⟩
  | stop => exact ⟨k, x, hs.stop hserial.1 hserial.2 hstep⟩
  | putSentinel => exact ⟨k, x, hs.putSentinel hstep⟩
  | joined w n => exact ⟨k, x, hs.joined hstep⟩
  | take w => exact hs.take hstep
  | collected w => exact ⟨k, hs.collected hstep⟩
  | pass w => exact ⟨k, hs.pass hstep⟩
  | answer w a => exact ⟨k, hs.answer hstep⟩
  | resolve w => exact hs.resolve hstep

end ProcessorSound

/-! ## 4. Delivery -/

/-- **Every command is delivered once** in a run in which no `start` and no `stop` begins before
every earlier `stop` has returned. -/
theorem commands_delivered {p : CommandProcessor γ ε β}
    (hrun : ProcessorRuns (fun p s => s.Serial p) p) : Delivered p := by
  suffices hsound : ∃ k x, ProcessorSound p k x by
    obtain ⟨k, x, hs⟩ := hsound
    exact hs.delivered
  induction hrun with
  | start hsize =>
    exact ⟨0, none, rfl, .stopped rfl rfl rfl rfl, hsize, rfl, fun b hb => (nomatch hb),
      fun y hy => (nomatch hy), rfl, rfl, fun a ha => (nomatch ha), fun n hn => nomatch hn⟩
  | step hrun hserial hstep ih =>
    obtain ⟨k, x, hs⟩ := ih
    exact hs.step hserial hstep

/-- A run given by its steps, which ends where a step does not meet the condition. -/
def CommandProcessor.runs (P : CommandProcessor γ ε β → ProcessorStep γ ε β → Prop)
    [∀ p s, Decidable (P p s)] (p : CommandProcessor γ ε β) (ss : List (ProcessorStep γ ε β)) :
    Option (CommandProcessor γ ε β) :=
  ss.foldlM (fun p s => if P p s then p.step s else none) p

theorem ProcessorRuns.of_runs {P : CommandProcessor γ ε β → ProcessorStep γ ε β → Prop}
    [∀ p s, Decidable (P p s)] (ss : List (ProcessorStep γ ε β)) :
    ∀ {p p' : CommandProcessor γ ε β}, ProcessorRuns P p → p.runs P ss = some p' →
      ProcessorRuns P p' := by
  induction ss with
  | nil =>
    intro p p' hrun hruns
    cases hruns
    exact hrun
  | cons s ss ih =>
    intro p p' hrun hruns
    unfold CommandProcessor.runs at hruns
    rw [List.foldlM_cons] at hruns
    obtain ⟨p₁, hstep, hrest⟩ := Option.bind_eq_some_iff.mp hruns
    split at hstep
    · rename_i hs
      exact ih (hrun.step hs hstep) hrest
    · cases hstep

instance (p : CommandProcessor γ ε β) (s : ProcessorStep γ ε β) : Decidable (s.Serial p) :=
  match s with
  | .start => inferInstanceAs (Decidable (p.putting = none ∧ p.joining = []))
  | .stop => inferInstanceAs (Decidable (p.putting = none ∧ p.joining = []))
  | .submit _ => isTrue trivial
  | .putSentinel => isTrue trivial
  | .joined _ _ => isTrue trivial
  | .take _ => isTrue trivial
  | .collected _ => isTrue trivial
  | .pass _ => isTrue trivial
  | .answer _ _ => isTrue trivial
  | .resolve _ => isTrue trivial

/-- A processor of commands that are texts. -/
def newProcessor : CommandProcessor String String Bool :=
  { maxQueueSize := 1024, maxBatchSize := 64 }

/-- Two commands in one batch, and a `stop`. -/
def twoCommands : List (ProcessorStep String String Bool) := [
  .start,
  .submit "put x 1",
  .submit "put y 2",
  .take 0,
  .take 0,
  .stop,
  .putSentinel,
  .take 0,
  .pass 0,
  .answer 0 (.ok [true, false]),
  .resolve 0,
  .resolve 0,
  .resolve 0,
  .joined 0 2]

theorem twoCommands_runs : (newProcessor.runs (fun p s => s.Serial p) twoCommands).isSome =
    true := by
  decide +kernel

theorem commands_delivered_twoCommands :
    Delivered ((newProcessor.runs (fun p s => s.Serial p) twoCommands).get twoCommands_runs) :=
  commands_delivered (ProcessorRuns.of_runs twoCommands (.start (by decide))
    (Option.some_get twoCommands_runs).symm)

/-- A second `stop`, while the first one joins its worker. -/
def secondStop : List (ProcessorStep String String Bool) := [
  .start,
  .submit "put x 1",
  .stop,
  .putSentinel,
  .stop]

theorem secondStop_runs : (newProcessor.runs (fun _ _ => True) secondStop).isSome = true := by
  decide +kernel

/-- **A second `stop` returns with a command in the queue.** -/
theorem commands_not_delivered : ¬ ∀ {p : CommandProcessor String String Bool},
    ProcessorRuns (fun _ _ => True) p → Delivered p := by
  intro hall
  have hdelivered := hall (ProcessorRuns.of_runs secondStop (.start (by decide))
    (Option.some_get secondStop_runs).symm)
  have hreturned : ((newProcessor.runs (fun _ _ => True) secondStop).get secondStop_runs).returned =
      [1] := by decide +kernel
  have hresolved : ((newProcessor.runs (fun _ _ => True) secondStop).get
      secondStop_runs).resolved.isEmpty = true := by decide +kernel
  obtain ⟨r, hr⟩ := hdelivered.stopped 1 (hreturned ▸ List.mem_singleton_self 1) 0 (by decide)
  rw [List.isEmpty_iff.mp hresolved] at hr
  cases hr

end PyRaftKv
