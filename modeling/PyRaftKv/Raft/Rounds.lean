/-
# `raft/node.py`: one call of `_replicate_followers_concurrently`, with its waiting loop

The cluster lets a round end at any time; here the loop that decides when it ends is followed turn
by turn.  The workers are seen from outside: a task of the executor is a number, and finishes at
some time with `True`, `False` or an exception.

`wait` returns the tasks that have finished by then, at least one, or nothing when the time is up.
Tasks may finish between any two turns.
-/
import PyRaftKv.Raft.State

namespace PyRaftKv

/-- What a task ends with: what `_replicate_to_follower` returns or raises. -/
abbrev TaskResult := Except RaftError Bool

/-- The executor, and `_replication_futures`. -/
structure Pool where
  futures : NodeId → Option Nat := fun _ => none
  finished : Nat → Option TaskResult := fun _ => none
  nextTask : Nat := 0

/-- Why the waiting loop was left. -/
inductive LoopExit
  /-- No task was pending. -/
  | exhausted
  | deadline
  /-- The `break` after some tasks were collected. -/
  | early
deriving DecidableEq

inductive RoundPhase
  /-- The first loop, with the followers it has not come to. -/
  | submitting (rest : List NodeId)
  | waiting (pending : List Nat)
  | returned (pending : List Nat) (exit : LoopExit)
  /-- The result of this task of this follower was an exception.  In the waiting loop these tasks
  were pending. -/
  | raised (follower : NodeId) (task : Nat) (error : RaftError) (pending : List Nat)

/-- A call of `_replicate_followers_concurrently`, after it has read the followers. -/
structure RoundCall where
  followers : List NodeId
  followerQuorum : Nat
  requiredFollower : Option NodeId
  pool : Pool
  results : NodeId → Option Bool := fun _ => none
  active : NodeId → Option Nat := fun _ => none
  phase : RoundPhase

inductive RoundEvent
  /-- A worker ends. -/
  | finish (task : Nat) (result : TaskResult)
  /-- The next turn of the first loop, or its end. -/
  | submit
  /-- `wait` returns some tasks. -/
  | wake
  /-- The time is up. -/
  | timeout

namespace RoundCall

def start (pool : Pool) (followers : List NodeId) (members : Nat)
    (requiredFollower : Option NodeId) : RoundCall where
  followers
  followerQuorum := members / 2
  requiredFollower
  pool
  phase := if followers.isEmpty then .returned [] .exhausted else .submitting followers

/-- A new task in the slot of follower `f`. -/
def submitNew (r : RoundCall) (f : NodeId) (rest : List NodeId) : RoundCall :=
  { r with
    pool := { r.pool with
      futures := Function.update r.pool.futures f (some r.pool.nextTask)
      nextTask := r.pool.nextTask + 1 }
    active := Function.update r.active f (some r.pool.nextTask)
    phase := .submitting rest }

/-- The turn of the first loop for follower `f`. -/
def submitTurn (r : RoundCall) (f : NodeId) (rest : List NodeId) : RoundCall :=
  match r.pool.futures f with
  | none => r.submitNew f rest
  | some task =>
    match r.pool.finished task with
    | none => { r with active := Function.update r.active f (some task), phase := .submitting rest }
    -- `future.result()` raises before the slot is cleared
    | some (.error e) => { r with phase := .raised f task e [] }
    | some (.ok result) =>
      { r with results := Function.update r.results f (some result) }.submitNew f rest

/-- `sum(results.values())`. -/
def successes (r : RoundCall) : Nat := r.followers.countP fun f => r.results f = some true

/-- The loop over `active.items()`, for the tasks that are done. -/
def collect (done : List Nat) : List NodeId → RoundCall → RoundCall
  | [], r => r
  | f :: rest, r =>
    match r.active f with
    | none => collect done rest r
    | some task =>
      if task ∉ done then collect done rest r
      else
        match r.pool.finished task with
        | none => collect done rest r
        | some (.error e) => { r with phase := .raised f task e [] }
        | some (.ok result) => collect done rest { r with
            results := Function.update r.results f (some result)
            pool := { r.pool with
              futures := if r.pool.futures f = some task then
                Function.update r.pool.futures f none else r.pool.futures } }

/-- A turn of the waiting loop ends: a `break`, or the test of its condition. -/
def endTurn (r : RoundCall) (pending : List Nat) : RoundCall :=
  match r.phase with
  | .raised f task e _ => { r with phase := .raised f task e pending }
  | _ =>
    if r.requiredFollower = none ∧ r.followerQuorum ≤ r.successes ∨
        r.requiredFollower.any (fun f => (r.results f).isSome) then
      { r with phase := .returned pending .early }
    else if pending.isEmpty then { r with phase := .returned [] .exhausted }
    else { r with phase := .waiting pending }

def step (r : RoundCall) : RoundEvent → Option RoundCall
  | .finish task result =>
    if task < r.pool.nextTask ∧ r.pool.finished task = none then
      some { r with pool := { r.pool with
        finished := Function.update r.pool.finished task (some result) } }
    else none
  | .submit =>
    match r.phase with
    | .submitting [] => some { r with phase := .waiting (r.followers.filterMap r.active) }
    | .submitting (f :: rest) => some (r.submitTurn f rest)
    | _ => none
  | .wake =>
    match r.phase with
    | .waiting pending =>
      let done := pending.filter fun task => (r.pool.finished task).isSome
      if done.isEmpty then none
      else some ((r.collect done r.followers).endTurn (pending.filter (· ∉ done)))
    | _ => none
  | .timeout =>
    match r.phase with
    | .waiting pending => some { r with phase := .returned pending .deadline }
    | _ => none

/-- Running a list of events, none of which may be refused. -/
def runs (r : RoundCall) : List RoundEvent → Option RoundCall
  | [] => some r
  | e :: es => (r.step e).bind fun r => r.runs es

/-- One step of a call. -/
def Step (r r' : RoundCall) : Prop := ∃ e, r.step e = some r'

end RoundCall

end PyRaftKv
