/-
# `raft/command_processor.py`: the queue in front of `submit_commands`

Clients hand in commands, a worker thread takes them from a bounded queue in batches and gives each
batch to `node.submit_commands`.  `None` in the queue is the SENTINEL that ends the worker that
takes it.

A step is what one thread does between two points where another can come in: a call of `start` or
`submit` holds the lifecycle lock from end to end; `stop` holds it until its sentinel is in the
queue, and joins the worker without it.  A future is named by the number of its command among
those accepted.  The node is a parameter: it answers a batch with a result for each command, or
raises.
-/
import Mathlib

namespace PyRaftKv

/-- What `node.submit_commands` gives for a batch. -/
abbrev BatchAnswer (ε β : Type) := Except ε (List β)

/-- Each future of a batch with what it is resolved with: `zip(batch, results)`, or the exception.
-/
def resolutions {ε β : Type} (batch : List Nat) : BatchAnswer ε β → List (Nat × Except ε β)
  | .ok results => batch.zip (results.map .ok)
  | .error e => batch.map fun future => (future, .error e)

/-- Where a worker thread is in `_run`. -/
inductive Worker (ε β : Type)
  /-- At `self._queue.get()`. -/
  | waiting
  /-- In `_collect_batch`. -/
  | collecting (batch : List Nat)
  /-- Before the call of `submit_commands`; `stopping` if the sentinel has been seen. -/
  | collected (batch : List Nat) (stopping : Bool)
  /-- In the call of `submit_commands`. -/
  | submitting (batch : List Nat) (stopping : Bool)
  /-- Resolving the futures of the batch. -/
  | resolving (rest : List (Nat × Except ε β)) (stopping : Bool)
  | done

/-- `RaftCommandProcessor`, its worker threads in the order they were started, and the calls of
`stop` that are under way: one that still waits to put its sentinel, and those that join a worker.
The last four fields are the history: the commands accepted, the batches passed on and the answers
to them, the futures resolved, and for each call of `stop` that has returned the number of commands
that had been accepted before it. -/
structure CommandProcessor (γ ε β : Type) where
  maxQueueSize : Nat
  maxBatchSize : Nat
  queue : List (Option Nat) := []
  thread : Option Nat := none
  workers : List (Worker ε β) := []
  putting : Option (Nat × Nat) := none
  joining : List (Nat × Nat) := []
  accepted : List γ := []
  passed : List (Nat × List Nat) := []
  answers : List (List Nat × BatchAnswer ε β) := []
  resolved : List (Nat × Except ε β) := []
  returned : List Nat := []

inductive ProcessorStep (γ ε β : Type)
  | start
  | submit (command : γ)
  /-- `stop` takes the lifecycle lock. -/
  | stop
  /-- `stop` puts its sentinel and lets go of the lock. -/
  | putSentinel
  /-- `thread.join()` returns. -/
  | joined (worker stoppedAt : Nat)
  /-- The worker takes an item from the queue: the first one of a batch, or one more. -/
  | take (worker : Nat)
  /-- `_collect_batch` ends, for the batch is full, the queue empty or the time over. -/
  | collected (worker : Nat)
  | pass (worker : Nat)
  | answer (worker : Nat) (answer : BatchAnswer ε β)
  | resolve (worker : Nat)

namespace CommandProcessor

variable {γ ε β : Type}

/-- `Queue.full()`; a queue of size zero is not bounded. -/
def full (p : CommandProcessor γ ε β) : Bool :=
  0 < p.maxQueueSize && p.maxQueueSize ≤ p.queue.length

def setWorker (p : CommandProcessor γ ε β) (w : Nat) (state : Worker ε β) :
    CommandProcessor γ ε β :=
  { p with workers := p.workers.set w state }

/-- The loop of `_run` goes on, or ends if the sentinel has been seen. -/
def afterBatch (stopping : Bool) : Worker ε β := if stopping then .done else .waiting

/-- A batch is answered with a result for each of its commands, or with an exception. -/
def Fits (batch : List Nat) : BatchAnswer ε β → Prop
  | .ok results => results.length = batch.length
  | .error _ => True

instance (batch : List Nat) (answer : BatchAnswer ε β) : Decidable (Fits batch answer) :=
  match answer with
  | .ok results => inferInstanceAs (Decidable (results.length = batch.length))
  | .error _ => isTrue trivial

/-- What a worker does with the next item of the queue. -/
def takeItem (p : CommandProcessor γ ε β) (w : Nat) :
    Worker ε β → List (Option Nat) → Option (CommandProcessor γ ε β)
  | .waiting, none :: queue => some ({ p with queue }.setWorker w .done)
  | .waiting, some future :: queue => some ({ p with queue }.setWorker w (.collecting [future]))
  | .collecting batch, item :: queue =>
    if batch.length < p.maxBatchSize then
      match item with
      | none => some ({ p with queue }.setWorker w (.collected batch true))
      | some future => some ({ p with queue }.setWorker w (.collecting (batch ++ [future])))
    else none
  | _, _ => none

/-- One step.  `none` where the step cannot be taken; a call of `submit` that raises, because no
worker runs or the queue is full, changes nothing. -/
def step (p : CommandProcessor γ ε β) : ProcessorStep γ ε β → Option (CommandProcessor γ ε β)
  | .start =>
    if p.putting.isSome then none
    else match p.thread with
      | some _ => some p
      | none => some { p with thread := some p.workers.length, workers := p.workers ++ [.waiting] }
  | .submit command =>
    if p.putting.isSome then none
    else if p.thread.isNone || p.full then some p
    else some { p with
      queue := p.queue ++ [some p.accepted.length]
      accepted := p.accepted ++ [command] }
  | .stop =>
    if p.putting.isSome then none
    else match p.thread with
      | none => some { p with returned := p.returned ++ [p.accepted.length] }
      | some t => some { p with thread := none, putting := some (t, p.accepted.length) }
  | .putSentinel =>
    match p.putting with
    | none => none
    | some call =>
      if p.full then none
      else some { p with
        queue := p.queue ++ [none]
        putting := none
        joining := p.joining ++ [call] }
  | .joined w stoppedAt =>
    match p.workers[w]? with
    | some .done =>
      if (w, stoppedAt) ∈ p.joining then
        some { p with
          joining := p.joining.erase (w, stoppedAt)
          returned := p.returned ++ [stoppedAt] }
      else none
    | _ => none
  | .take w =>
    match p.workers[w]? with
    | some state => p.takeItem w state p.queue
    | none => none
  | .collected w =>
    match p.workers[w]? with
    | some (.collecting batch) => some (p.setWorker w (.collected batch false))
    | _ => none
  | .pass w =>
    match p.workers[w]? with
    | some (.collected batch stopping) =>
      some ({ p with passed := p.passed ++ [(w, batch)] }.setWorker w (.submitting batch stopping))
    | _ => none
  | .answer w answer =>
    match p.workers[w]? with
    | some (.submitting batch stopping) =>
      if Fits batch answer then
        some ({ p with answers := p.answers ++ [(batch, answer)] }.setWorker w
          (.resolving (resolutions batch answer) stopping))
      else none
    | _ => none
  | .resolve w =>
    match p.workers[w]? with
    | some (.resolving [] stopping) => some (p.setWorker w (afterBatch stopping))
    | some (.resolving (r :: rest) stopping) =>
      some ({ p with resolved := p.resolved ++ [r] }.setWorker w (.resolving rest stopping))
    | _ => none

/-! ## 1. Where the commands are -/

/-- The futures of the commands in the queue. -/
def queued (p : CommandProcessor γ ε β) : List Nat := p.queue.filterMap id

end CommandProcessor

/-- The futures that a worker has taken and not passed on yet. -/
def Worker.held {ε β : Type} : Worker ε β → List Nat
  | .collecting batch => batch
  | .collected batch _ => batch
  | _ => []

/-- The futures that a worker has still to resolve, in a batch that has been answered. -/
def Worker.owed {ε β : Type} : Worker ε β → List (Nat × Except ε β)
  | .resolving rest _ => rest
  | _ => []

/-- The futures of a batch that the node has not answered. -/
def Worker.asked {ε β : Type} : Worker ε β → List Nat
  | .submitting batch _ => batch
  | _ => []

end PyRaftKv
