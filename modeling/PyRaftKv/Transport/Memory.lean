/-
# `transport/memory.py`: calls inside one process, with injected faults

All that `_get_node` reads it reads under one lock, so a call finds its target or fails in one step.
A gate that is set up for it makes it wait after that, outside of the lock and with the handler it
has found.  A gate is an `Event`, and here its number; whoever called `delay` has it too and may set
it.

**Sections 1 to 3** are the faults, the calls and runs of both.  **Section 4**: a drop takes as many
calls as it says, the next ones that find their link open (`drops_take_the_next`).  **Section 5**: a
partition cuts what lies between its groups and nothing else for as long as it stands
(`partition_isolates`).  **Section 6**: which events set a gate (`gate_opens`).
-/
import PyRaftKv.Raft.State
import Mathlib.Data.Finset.Prod
import Mathlib.Data.List.AList

namespace PyRaftKv

/-- `RPCName`. -/
inductive RpcName
  | requestVote
  | appendEntries
  | installSnapshot
  | timeoutNow
deriving DecidableEq

def RpcName.text : RpcName → String
  | .requestVote => "request_vote"
  | .appendEntries => "append_entries"
  | .installSnapshot => "install_snapshot"
  | .timeoutNow => "timeout_now"

/-- What faults and counters are kept for: one kind of call over one directed link. -/
structure LinkKey where
  rpc : RpcName
  source : NodeId
  target : NodeId
deriving DecidableEq

/-- Why `_get_node` raises `TransportError`. -/
inductive LinkFailure
  | unreachable
  | dropped
  | unknownNode
deriving DecidableEq

def LinkFailure.message (key : LinkKey) : LinkFailure → String
  | .unreachable => s!"Link {key.source} -> {key.target} is unreachable"
  | .dropped => s!"Dropped {key.rpc.text} from {key.source} to {key.target}"
  | .unknownNode => s!"Unknown node: {key.target}"

/-- The `ValueError` of a fault that cannot be injected. -/
inductive FaultError
  | valueError (message : String)
  /-- `Unknown partition nodes`, and which. -/
  | unknownNodes (nodes : Finset NodeId)
deriving DecidableEq

/-- `InMemoryTransport`.  `released` are the gates that are set. -/
structure InMemoryTransport (Handler : Type) where
  nodes : AList fun _ : NodeId => Handler := ∅
  blocked : Finset NodeId := ∅
  blockedLinks : Finset (NodeId × NodeId) := ∅
  partitionLinks : Finset (NodeId × NodeId) := ∅
  drops : LinkKey → Nat := fun _ => 0
  delays : AList fun _ : LinkKey => Nat := ∅
  calls : LinkKey → Nat := fun _ => 0
  released : Finset Nat := ∅
  nextGate : Nat := 0

namespace InMemoryTransport

variable {Handler : Type} (t : InMemoryTransport Handler)

/-! ## 1. Faults -/

/-- The checks of `partition`, group by group: the members of them all. -/
def checkGroups : List (Finset NodeId) → Finset NodeId → Except FaultError (Finset NodeId)
  | [], members => .ok members
  | group :: groups, members =>
    if group = ∅ then .error (.valueError "Partition groups cannot be empty")
    else if (members ∩ group).Nonempty then
      .error (.valueError "Partition groups must be disjoint")
    else checkGroups groups (members ∪ group)

/-- The links between two groups, in both directions. -/
def linksBetween (group other : Finset NodeId) : Finset (NodeId × NodeId) :=
  group ×ˢ other ∪ other ×ˢ group

/-- The links between each two of some groups. -/
def groupLinks : List (Finset NodeId) → Finset (NodeId × NodeId)
  | [] => ∅
  | group :: groups =>
    groups.foldr (fun other links => linksBetween group other ∪ links) (groupLinks groups)

def partition (groups : List (Finset NodeId)) : Except FaultError (InMemoryTransport Handler) :=
  if groups.length < 2 then
    .error (.valueError "A partition requires at least two groups")
  else
    match checkGroups groups ∅ with
    | .error e => .error e
    | .ok members =>
      let nodes := t.nodes.keys.toFinset
      if (members \ nodes).Nonempty then .error (.unknownNodes (members \ nodes))
      else if members ≠ nodes then
        .error (.valueError "Partition groups must include every node")
      else .ok { t with partitionLinks := groupLinks groups }

/-- `heal`: no fault is left, and every gate is set. -/
def heal : InMemoryTransport Handler :=
  { t with
    blocked := ∅
    blockedLinks := ∅
    partitionLinks := ∅
    drops := fun _ => 0
    delays := ∅
    released := t.released ∪ (t.delays.entries.map Sigma.snd).toFinset }

def dropNext (key : LinkKey) (count : Int) : Except FaultError (InMemoryTransport Handler) :=
  if count ≤ 0 then .error (.valueError "drop count must be positive")
  else .ok { t with drops := Function.update t.drops key count.toNat }

/-- `delay`: a new gate takes the place of the one the key has. -/
def delay (key : LinkKey) : InMemoryTransport Handler :=
  { t with delays := t.delays.insert key t.nextGate, nextGate := t.nextGate + 1 }

def release (key : LinkKey) : InMemoryTransport Handler :=
  match t.delays.lookup key with
  | none => t
  | some gate => { t with delays := t.delays.erase key, released := insert gate t.released }

/-- What a test may do to the transport. -/
inductive Fault (Handler : Type)
  | register (node : NodeId) (handler : Handler)
  | unregister (node : NodeId)
  | block (node : NodeId)
  | unblock (node : NodeId)
  | blockLink (source target : NodeId)
  | unblockLink (source target : NodeId)
  | partition (groups : List (Finset NodeId))
  | healPartition
  | heal
  | dropNext (key : LinkKey) (count : Int)
  | delay (key : LinkKey)
  | release (key : LinkKey)
  /-- Whoever has a gate sets it. -/
  | set (gate : Nat)

def inject : Fault Handler → Except FaultError (InMemoryTransport Handler)
  | .register node handler => .ok { t with nodes := t.nodes.insert node handler }
  | .unregister node => .ok { t with nodes := t.nodes.erase node }
  | .block node => .ok { t with blocked := insert node t.blocked }
  | .unblock node => .ok { t with blocked := t.blocked.erase node }
  | .blockLink source target => .ok { t with
      blockedLinks := insert (source, target) t.blockedLinks }
  | .unblockLink source target => .ok { t with
      blockedLinks := t.blockedLinks.erase (source, target) }
  | .partition groups => t.partition groups
  | .healPartition => .ok { t with partitionLinks := ∅ }
  | .heal => .ok t.heal
  | .dropNext key count => t.dropNext key count
  | .delay key => .ok (t.delay key)
  | .release key => .ok (t.release key)
  | .set gate =>
    -- nobody has a gate that is not made yet
    .ok (if gate < t.nextGate then { t with released := insert gate t.released } else t)

/-! ## 2. Calls -/

/-- No call passes. -/
def Cut (source target : NodeId) : Prop :=
  source ∈ t.blocked ∨ target ∈ t.blocked ∨ (source, target) ∈ t.blockedLinks ∨
    (source, target) ∈ t.partitionLinks

instance (source target : NodeId) : Decidable (t.Cut source target) :=
  inferInstanceAs (Decidable (_ ∨ _ ∨ _ ∨ _))

/-- What a call comes to: a failure, or the handler and the gate that the call waits for. -/
abbrev Answer (Handler : Type) := Except LinkFailure (Handler × Option Nat)

def count (key : LinkKey) : InMemoryTransport Handler :=
  { t with calls := Function.update t.calls key (t.calls key + 1) }

/-- `_get_node`, up to the gate. -/
def getNode (key : LinkKey) : Answer Handler × InMemoryTransport Handler :=
  let t := t.count key
  if t.Cut key.source key.target then (.error .unreachable, t)
  else if t.drops key ≠ 0 then
    (.error .dropped, { t with drops := Function.update t.drops key (t.drops key - 1) })
  else
    match t.nodes.lookup key.target with
    | none => (.error .unknownNode, t)
    | some node => (.ok (node, t.delays.lookup key), t)

/-! ## 3. Runs -/

/-- A fault is injected, or somebody calls. -/
inductive Event (Handler : Type)
  | inject (fault : Fault Handler)
  | call (key : LinkKey)

/-- The transport behind an event.  A fault that cannot be injected leaves it as it is. -/
def after : Event Handler → InMemoryTransport Handler
  | .inject fault =>
    match t.inject fault with
    | .error _ => t
    | .ok t' => t'
  | .call key => (t.getNode key).2

def run : InMemoryTransport Handler → List (Event Handler) → InMemoryTransport Handler
  | t, [] => t
  | t, event :: events => run (t.after event) events

/-- The answers to the calls of one key, in their order. -/
def answers (key : LinkKey) :
    InMemoryTransport Handler → List (Event Handler) → List (Answer Handler)
  | _, [] => []
  | t, .inject fault :: events => answers key (t.after (.inject fault)) events
  | t, .call key' :: events =>
    if key' = key then (t.getNode key).1 :: answers key (t.after (.call key')) events
    else answers key (t.after (.call key')) events

/-- The call did not find its link cut. -/
def Answer.reached : Answer Handler → Bool
  | .error .unreachable => false
  | _ => true

def Answer.dropped : Answer Handler → Bool
  | .error .dropped => true
  | _ => false

variable {t}

/-- All that a call can come to, and what it leaves behind. -/
theorem getNode_cases (key : LinkKey) :
    (t.Cut key.source key.target ∧ t.getNode key = (.error .unreachable, t.count key)) ∨
    (¬ t.Cut key.source key.target ∧ t.drops key ≠ 0 ∧
      t.getNode key = (.error .dropped,
        { t.count key with drops := Function.update t.drops key (t.drops key - 1) })) ∨
    (¬ t.Cut key.source key.target ∧ t.drops key = 0 ∧ (t.getNode key).2 = t.count key ∧
      (t.getNode key).1.reached = true ∧ (t.getNode key).1.dropped = false) := by
  by_cases hc : t.Cut key.source key.target
  · exact .inl ⟨hc, if_pos hc⟩
  by_cases hd : t.drops key = 0
  · refine .inr (.inr ⟨hc, hd, ?_⟩)
    have hc : ¬ (t.count key).Cut key.source key.target := hc
    have hd : ¬ (t.count key).drops key ≠ 0 := not_not.mpr hd
    simp only [getNode, if_neg hc, if_neg hd]
    cases (t.count key).nodes.lookup key.target <;> exact ⟨rfl, rfl, rfl⟩
  · exact .inr (.inl ⟨hc, hd, (if_neg hc).trans (if_pos hd)⟩)

/-- A call changes the counters alone. -/
theorem after_call (key : LinkKey) :
    ∃ calls drops, t.after (.call key) = { t with calls := calls, drops := drops } := by
  rcases getNode_cases (t := t) key with ⟨-, h⟩ | ⟨-, -, h⟩ | ⟨-, -, h, -⟩
  · exact ⟨_, _, congrArg Prod.snd h⟩
  · exact ⟨_, _, congrArg Prod.snd h⟩
  · exact ⟨_, _, h⟩

theorem partition_ok {groups : List (Finset NodeId)} {t' : InMemoryTransport Handler}
    (h : t.partition groups = .ok t') :
    checkGroups groups ∅ = .ok t.nodes.keys.toFinset ∧
      t' = { t with partitionLinks := groupLinks groups } := by
  rw [partition] at h
  split_ifs at h
  cases hc : checkGroups groups ∅ with
  | error e => rw [hc] at h; cases h
  | ok members =>
    rw [hc] at h
    dsimp only at h
    split_ifs at h with h1 h2
    cases h
    exact ⟨congrArg _ (not_not.mp h2), rfl⟩

theorem after_partition (groups : List (Finset NodeId)) :
    ∃ links, t.after (.inject (.partition groups)) = { t with partitionLinks := links } := by
  simp only [after, inject]
  cases h : t.partition groups with
  | error e => exact ⟨_, rfl⟩
  | ok t' => exact ⟨_, (partition_ok h).2⟩

theorem after_dropNext (key : LinkKey) (count : Int) :
    ∃ drops, t.after (.inject (.dropNext key count)) = { t with drops := drops } ∧
      ∀ key', key ≠ key' → drops key' = t.drops key' := by
  simp only [after, inject, dropNext]
  split_ifs
  · exact ⟨_, rfl, fun _ _ => rfl⟩
  · exact ⟨_, rfl, fun _ h => Function.update_of_ne (Ne.symm h) _ _⟩

theorem after_release (key : LinkKey) :
    ∃ delays released, t.after (.inject (.release key)) =
      { t with delays := delays, released := released } := by
  simp only [after, inject, release]
  cases t.delays.lookup key with
  | none => exact ⟨_, _, rfl⟩
  | some gate => exact ⟨_, _, rfl⟩

theorem after_set (gate : Nat) :
    ∃ released, t.after (.inject (.set gate)) = { t with released := released } := by
  simp only [after, inject]
  split_ifs
  · exact ⟨_, rfl⟩
  · exact ⟨_, rfl⟩

/-! ## 4. Drops -/

/-- An event that leaves the drops of a key alone, calls of the key apart. -/
def Event.KeepsDrops (key : LinkKey) : Event Handler → Prop
  | .inject .heal => False
  | .inject (.dropNext key' _) => key' ≠ key
  | _ => True

theorem drops_after_inject {key : LinkKey} {fault : Fault Handler}
    (hk : (Event.inject fault).KeepsDrops key) :
    (t.after (.inject fault)).drops key = t.drops key := by
  cases fault with
  | heal => exact hk.elim
  | dropNext key' count =>
    obtain ⟨drops, h, hd⟩ := after_dropNext (t := t) key' count
    rw [h]
    exact hd key hk
  | partition groups => obtain ⟨_, h⟩ := after_partition (t := t) groups; rw [h]
  | release key' => obtain ⟨_, _, h⟩ := after_release (t := t) key'; rw [h]
  | set gate => obtain ⟨_, h⟩ := after_set (t := t) gate; rw [h]
  | register | unregister | block | unblock | blockLink | unblockLink | healPartition | delay => rfl

theorem calls_after_inject (fault : Fault Handler) :
    (t.after (.inject fault)).calls = t.calls := by
  cases fault with
  | dropNext key count => obtain ⟨_, h, -⟩ := after_dropNext (t := t) key count; rw [h]
  | partition groups => obtain ⟨_, h⟩ := after_partition (t := t) groups; rw [h]
  | release key => obtain ⟨_, _, h⟩ := after_release (t := t) key; rw [h]
  | set gate => obtain ⟨_, h⟩ := after_set (t := t) gate; rw [h]
  | register | unregister | block | unblock | blockLink | unblockLink | healPartition | heal
  | delay => rfl

theorem calls_after_call (key : LinkKey) :
    (t.after (.call key)).calls = Function.update t.calls key (t.calls key + 1) := by
  rcases getNode_cases (t := t) key with ⟨-, h⟩ | ⟨-, -, h⟩ | ⟨-, -, h, -⟩
  · exact congrArg (fun r => r.2.calls) h
  · exact congrArg (fun r => r.2.calls) h
  · exact congrArg (fun u => u.calls) h

theorem drops_after_other {key key' : LinkKey} (h : key' ≠ key) :
    (t.after (.call key')).drops key = t.drops key := by
  rcases getNode_cases (t := t) key' with ⟨-, h'⟩ | ⟨-, -, h'⟩ | ⟨-, -, h', -⟩
  · exact congrArg (fun r => r.2.drops key) h'
  · exact (congrArg (fun r => r.2.drops key) h').trans (Function.update_of_ne (Ne.symm h) _ _)
  · exact congrArg (fun u => u.drops key) h'

theorem Answer.dropped_iff {answer : Answer Handler} :
    answer.dropped = true ↔ answer = .error .dropped := by
  rcases answer with (_ | _ | _) | _ <;> simp [Answer.dropped]

/-- The calls of a key that reach the drops of it use them up one by one, and only then pass. -/
theorem answers_dropped {key : LinkKey} {events : List (Event Handler)}
    (hk : ∀ event ∈ events, event.KeepsDrops key) (t : InMemoryTransport Handler) :
    let reached := (answers key t events).filter Answer.reached
    (∀ answer ∈ reached.take (t.drops key), answer.dropped = true) ∧
      (∀ answer ∈ reached.drop (t.drops key), answer.dropped = false) ∧
      (t.run events).drops key = t.drops key - reached.length := by
  induction events generalizing t with
  | nil => simp [answers, run]
  | cons event events ih =>
    have ih := ih (fun e he => hk e (List.mem_cons_of_mem _ he)) (t.after event)
    have hk := hk event List.mem_cons_self
    cases event with
    | inject fault =>
      rw [drops_after_inject hk] at ih
      exact ih
    | call key' =>
      by_cases h : key' = key
      swap
      · rw [drops_after_other h] at ih
        simpa only [answers, if_neg h, run] using ih
      subst h
      simp only [answers, if_pos, run]
      rcases getNode_cases (t := t) key' with ⟨-, h⟩ | ⟨-, hd, h⟩ | ⟨-, hd, h, hr, hn⟩
      · -- the link is cut, and the call leaves the drops as they are
        have ha : (t.after (.call key')).drops key' = t.drops key' :=
          congrArg (fun r => r.2.drops key') h
        rw [ha] at ih
        rw [h, List.filter_cons_of_neg (by simp [Answer.reached])]
        exact ih
      · have ha : (t.after (.call key')).drops key' = t.drops key' - 1 :=
          (congrArg (fun r => r.2.drops key') h).trans (Function.update_self _ _ _)
        obtain ⟨n, hn⟩ := Nat.exists_eq_succ_of_ne_zero hd
        rw [ha, hn] at ih
        obtain ⟨h1, h2, h3⟩ := ih
        rw [hn, h, List.filter_cons_of_pos rfl, List.take_succ_cons, List.drop_succ_cons,
          List.length_cons]
        exact ⟨List.forall_mem_cons.mpr ⟨rfl, h1⟩, h2, by rw [h3]; omega⟩
      · have ha : (t.after (.call key')).drops key' = 0 :=
          (congrArg (fun u => u.drops key') h).trans hd
        rw [ha] at ih
        obtain ⟨-, h2, h3⟩ := ih
        rw [hd, List.filter_cons_of_pos hr]
        exact ⟨by simp, List.forall_mem_cons.mpr ⟨hn, h2⟩, by rw [h3]; omega⟩

/-- `call_count`: every call of the key counts, whatever comes of it. -/
theorem calls_run (key : LinkKey) (events : List (Event Handler)) (t : InMemoryTransport Handler) :
    (t.run events).calls key = t.calls key + (answers key t events).length := by
  induction events generalizing t with
  | nil => rfl
  | cons event events ih =>
    rw [run, ih]
    cases event with
    | inject fault => rw [calls_after_inject, answers]
    | call key' =>
      rw [calls_after_call, answers]
      by_cases h : key' = key
      · subst h
        rw [Function.update_self, if_pos rfl, List.length_cons]
        omega
      · rw [Function.update_of_ne (Ne.symm h), if_neg h]

/-- A drop that is injected takes the next calls of its key that find the link open, as many as it
says and in their order, and no call behind them; it does not wait for the target to be known, and
calls over a cut link do not use it up. -/
theorem drops_take_the_next {t' : InMemoryTransport Handler} {key : LinkKey} {count : Int}
    {events : List (Event Handler)} (hd : t.dropNext key count = .ok t')
    (hk : ∀ event ∈ events, event.KeepsDrops key) :
    let reached := (answers key t' events).filter Answer.reached
    (∀ answer ∈ reached.take count.toNat, answer = .error .dropped) ∧
      (∀ answer ∈ reached.drop count.toNat, answer ≠ .error .dropped) ∧
      (t'.run events).drops key = count.toNat - reached.length ∧
      (t'.run events).calls key = t.calls key + (answers key t' events).length := by
  have ht : t' = { t with drops := Function.update t.drops key count.toNat } := by
    rw [dropNext] at hd
    split_ifs at hd
    exact (Except.ok.inj hd).symm
  have hn : t'.drops key = count.toNat := by rw [ht]; exact Function.update_self _ _ _
  obtain ⟨h1, h2, h3⟩ := answers_dropped hk t'
  rw [hn] at h1 h2 h3
  refine ⟨fun a ha => Answer.dropped_iff.mp (h1 a ha), fun a ha h => ?_, h3, ?_⟩
  · exact Bool.false_ne_true ((h2 a ha).symm.trans (Answer.dropped_iff.mpr h))
  · rw [calls_run, ht]

/-- Requests for a vote from one node to another. -/
def votes : LinkKey := ⟨.requestVote, "n1", "n2"⟩

/-- A call over a cut link, and two calls behind it. -/
def threeCalls : List (Event Unit) :=
  [.inject (.block "n2"), .call votes, .inject (.unblock "n2"), .call votes, .call votes]

theorem drops_take_the_next_once : ∃ t' : InMemoryTransport Unit,
    ({} : InMemoryTransport Unit).dropNext votes 1 = .ok t' ∧
      (∀ answer ∈ ((answers votes t' threeCalls).filter Answer.reached).take 1,
        answer = .error .dropped) ∧
      (t'.run threeCalls).calls votes = 0 + (answers votes t' threeCalls).length := by
  refine ⟨_, rfl, ?_⟩
  have h := @drops_take_the_next Unit {} _ votes 1 threeCalls rfl
    (by simp [threeCalls, Event.KeepsDrops])
  exact ⟨h.1, h.2.2.2⟩

/-! ## 5. Partitions -/

/-- What the checks of `partition` let through. -/
theorem checkGroups_ok {groups : List (Finset NodeId)} {members all : Finset NodeId}
    (h : checkGroups groups members = .ok all) :
    groups.Pairwise Disjoint ∧ (∀ group ∈ groups, Disjoint members group) ∧
      ∀ node, node ∈ all ↔ node ∈ members ∨ ∃ group ∈ groups, node ∈ group := by
  induction groups generalizing members with
  | nil =>
    cases h
    simp
  | cons group groups ih =>
    rw [checkGroups] at h
    split_ifs at h with _ hd
    obtain ⟨hp, hm, ha⟩ := ih h
    have hd : Disjoint members group :=
      Finset.disjoint_iff_inter_eq_empty.mpr (Finset.not_nonempty_iff_eq_empty.mp hd)
    refine ⟨List.pairwise_cons.mpr ⟨fun other ho => ?_, hp⟩,
      List.forall_mem_cons.mpr ⟨hd, fun other ho => ?_⟩, fun node => ?_⟩
    · exact (hm other ho).mono_left Finset.subset_union_right
    · exact (hm other ho).mono_left Finset.subset_union_left
    · rw [ha, Finset.mem_union, List.exists_mem_cons_iff, or_assoc]

theorem mem_linksBetween {group other : Finset NodeId} {source target : NodeId} :
    (source, target) ∈ linksBetween group other ↔
      source ∈ group ∧ target ∈ other ∨ source ∈ other ∧ target ∈ group := by
  rw [linksBetween, Finset.mem_union, Finset.mem_product, Finset.mem_product]

theorem mem_groupLinks_cons {group : Finset NodeId} {groups : List (Finset NodeId)}
    {link : NodeId × NodeId} :
    link ∈ groupLinks (group :: groups) ↔
      (∃ other ∈ groups, link ∈ linksBetween group other) ∨ link ∈ groupLinks groups := by
  rw [groupLinks]
  generalize groupLinks groups = links
  induction groups with
  | nil => simp
  | cons other groups ih =>
    rw [List.foldr_cons, Finset.mem_union, ih, List.exists_mem_cons_iff, or_assoc]

/-- The links that `partition` cuts are those from a group to another. -/
theorem mem_groupLinks {groups : List (Finset NodeId)} (hp : groups.Pairwise Disjoint)
    {source target : NodeId} :
    (source, target) ∈ groupLinks groups ↔
      ∃ group ∈ groups, ∃ other ∈ groups, group ≠ other ∧ source ∈ group ∧ target ∈ other := by
  induction hp with
  | nil => simp [groupLinks]
  | @cons group groups hd _ ih =>
    have hne {other : Finset NodeId} (ho : other ∈ groups) {node : NodeId} (hn : node ∈ group) :
        group ≠ other := by
      rintro rfl
      exact Finset.disjoint_left.mp (hd _ ho) hn hn
    rw [mem_groupLinks_cons, ih]
    constructor
    · rintro (⟨other, ho, hl⟩ | ⟨g, hg, other, ho, h⟩)
      · rcases mem_linksBetween.mp hl with ⟨hs, ht⟩ | ⟨hs, ht⟩
        · exact ⟨group, .head _, other, .tail _ ho, hne ho hs, hs, ht⟩
        · exact ⟨other, .tail _ ho, group, .head _, (hne ho ht).symm, hs, ht⟩
      · exact ⟨g, .tail _ hg, other, .tail _ ho, h⟩
    · rintro ⟨g, hg, other, ho, hgo, hs, ht⟩
      rcases List.mem_cons.mp hg with rfl | hg' <;> rcases List.mem_cons.mp ho with rfl | ho'
      · exact absurd rfl hgo
      · exact .inl ⟨other, ho', mem_linksBetween.mpr (.inl ⟨hs, ht⟩)⟩
      · exact .inl ⟨g, hg', mem_linksBetween.mpr (.inr ⟨hs, ht⟩)⟩
      · exact .inr ⟨g, hg', other, ho', hgo, hs, ht⟩

/-- An event that leaves the partition alone. -/
def Event.KeepsPartition : Event Handler → Prop
  | .inject (.partition _) => False
  | .inject .healPartition => False
  | .inject .heal => False
  | _ => True

theorem links_after {event : Event Handler} (hk : event.KeepsPartition) :
    (t.after event).partitionLinks = t.partitionLinks := by
  cases event with
  | call key => obtain ⟨_, _, h⟩ := after_call (t := t) key; rw [h]
  | inject fault =>
    cases fault with
    | partition | healPartition | heal => exact hk.elim
    | dropNext key count => obtain ⟨_, h, -⟩ := after_dropNext (t := t) key count; rw [h]
    | release key => obtain ⟨_, _, h⟩ := after_release (t := t) key; rw [h]
    | set gate => obtain ⟨_, h⟩ := after_set (t := t) gate; rw [h]
    | register | unregister | block | unblock | blockLink | unblockLink | delay => rfl

theorem links_run {events : List (Event Handler)} (hk : ∀ event ∈ events, event.KeepsPartition)
    (t : InMemoryTransport Handler) : (t.run events).partitionLinks = t.partitionLinks := by
  induction events generalizing t with
  | nil => rfl
  | cons event events ih =>
    obtain ⟨hk, hks⟩ := List.forall_mem_cons.mp hk
    rw [run, ih hks, links_after hk]

theorem unreachable_iff (key : LinkKey) :
    (t.getNode key).1 = .error .unreachable ↔ t.Cut key.source key.target := by
  rcases getNode_cases (t := t) key with ⟨hc, h⟩ | ⟨hc, -, h⟩ | ⟨hc, -, -, hr, -⟩
  · simp [h, hc]
  · simp [h, hc]
  · refine iff_of_false (fun h => ?_) hc
    rw [h] at hr
    cases hr

/-- A partition that is accepted puts each node in one group.  As long as it is not healed or
replaced, a call from a group to another is unreachable whatever else is injected, and no other
call is but for a block of a node or of its link. -/
theorem partition_isolates {t' : InMemoryTransport Handler} {groups : List (Finset NodeId)}
    {events : List (Event Handler)} (hp : t.partition groups = .ok t')
    (hk : ∀ event ∈ events, event.KeepsPartition) :
    (∀ node ∈ t.nodes, ∃! group, group ∈ groups ∧ node ∈ group) ∧
    ∀ key : LinkKey,
      ((t'.run events).getNode key).1 = .error .unreachable ↔
        key.source ∈ (t'.run events).blocked ∨ key.target ∈ (t'.run events).blocked ∨
        (key.source, key.target) ∈ (t'.run events).blockedLinks ∨
        ∃ group ∈ groups, ∃ other ∈ groups,
          group ≠ other ∧ key.source ∈ group ∧ key.target ∈ other := by
  obtain ⟨hc, ht⟩ := partition_ok hp
  obtain ⟨hd, -, ha⟩ := checkGroups_ok hc
  refine ⟨fun node hn => ?_, fun key => ?_⟩
  · have hn : node ∈ t.nodes.keys.toFinset := List.mem_toFinset.mpr hn
    obtain hn | ⟨group, hg, hn⟩ := (ha node).mp hn
    · exact absurd hn (Finset.notMem_empty node)
    refine ⟨group, ⟨hg, hn⟩, fun other h => ?_⟩
    obtain ⟨ho, hn'⟩ := h
    by_contra hne
    exact Finset.disjoint_left.mp (hd.forall ho hg hne) hn' hn
  · have hl : (t'.run events).partitionLinks = groupLinks groups := by rw [links_run hk, ht]
    rw [unreachable_iff, Cut, hl, mem_groupLinks hd]

/-- A transport of two nodes. -/
def twoNodes : InMemoryTransport Unit :=
  ({} : InMemoryTransport Unit).run [.inject (.register "n1" ()), .inject (.register "n2" ())]

theorem partition_isolates_two : ∃ t', twoNodes.partition [{"n1"}, {"n2"}] = .ok t' ∧
    ((t'.run [.call votes, .inject (.unblock "n2")]).getNode votes).1 = .error .unreachable := by
  have hp : twoNodes.partition [{"n1"}, {"n2"}] =
      .ok { twoNodes with partitionLinks := groupLinks [{"n1"}, {"n2"}] } := rfl
  refine ⟨_, hp, ?_⟩
  refine ((partition_isolates hp (by simp [Event.KeepsPartition])).2 votes).mpr ?_
  exact .inr (.inr (.inr ⟨{"n1"}, by simp, {"n2"}, by simp, by simp, by simp [votes],
    by simp [votes]⟩))

/-! ## 6. Gates -/

/-- The gate is not set yet, and it is the one that calls of `owner` wait for. -/
structure Waiting (t : InMemoryTransport Handler) (gate : Nat) (owner : Option LinkKey) : Prop where
  made : gate < t.nextGate
  notReleased : gate ∉ t.released
  lookup_iff : ∀ key, t.delays.lookup key = some gate ↔ owner = some key

/-- No gate is in use that is not made yet. -/
def GatesMade (t : InMemoryTransport Handler) : Prop :=
  ∀ gate, t.nextGate ≤ gate → gate ∉ t.released ∧ ∀ key, t.delays.lookup key ≠ some gate

/-- An event that sets the gate of a key. -/
def Event.Frees (key : LinkKey) : Event Handler → Prop
  | .inject .heal => True
  | .inject (.release key') => key' = key
  | _ => False

theorem mem_released_heal {gate : Nat} :
    gate ∈ t.heal.released ↔ gate ∈ t.released ∨ ∃ key, t.delays.lookup key = some gate := by
  have h : gate ∈ (t.delays.entries.map Sigma.snd).toFinset ↔
      ∃ key, t.delays.lookup key = some gate := by
    rw [List.mem_toFinset, List.mem_map]
    constructor
    · rintro ⟨⟨key, _⟩, hm, rfl⟩
      exact ⟨key, AList.mem_lookup_iff.mpr hm⟩
    · rintro ⟨key, hl⟩
      exact ⟨⟨key, gate⟩, AList.mem_lookup_iff.mp hl, rfl⟩
  rw [heal, Finset.mem_union, h]

theorem released_release {key : LinkKey} {gate : Nat} (h : t.delays.lookup key = some gate) :
    t.release key = { t with
      delays := t.delays.erase key, released := insert gate t.released } := by
  rw [release, h]

theorem release_of_none {key : LinkKey} (h : t.delays.lookup key = none) : t.release key = t := by
  rw [release, h]

theorem mem_released_after {gate : Nat} (event : Event Handler) (h : gate ∈ t.released) :
    gate ∈ (t.after event).released := by
  cases event with
  | call key => obtain ⟨_, _, h'⟩ := after_call (t := t) key; rw [h']; exact h
  | inject fault =>
    cases fault with
    | heal => exact mem_released_heal.mpr (.inl h)
    | release key =>
      change gate ∈ (t.release key).released
      cases hl : t.delays.lookup key with
      | none => rwa [release_of_none hl]
      | some gate' => rw [released_release hl]; exact Finset.mem_insert_of_mem h
    | set gate' =>
      simp only [after, inject]
      split_ifs
      · exact Finset.mem_insert_of_mem h
      · exact h
    | dropNext key count => obtain ⟨_, h', -⟩ := after_dropNext (t := t) key count; rwa [h']
    | partition groups => obtain ⟨_, h'⟩ := after_partition (t := t) groups; rwa [h']
    | register | unregister | block | unblock | blockLink | unblockLink | healPartition
    | delay => exact h

theorem mem_released_run {gate : Nat} (events : List (Event Handler))
    (h : gate ∈ t.released) : gate ∈ (t.run events).released := by
  induction events generalizing t with
  | nil => exact h
  | cons event events ih => exact ih (mem_released_after event h)

theorem GatesMade.after (h : t.GatesMade) (event : Event Handler) : (t.after event).GatesMade := by
  cases event with
  | call key => obtain ⟨_, _, h'⟩ := after_call (t := t) key; rw [h']; exact h
  | inject fault =>
    cases fault with
    | heal =>
      refine fun gate hg => ⟨fun hm => ?_, fun key hl => ?_⟩
      · rcases mem_released_heal.mp hm with hm | ⟨key, hl⟩
        · exact (h gate hg).1 hm
        · exact (h gate hg).2 key hl
      · cases hl
    | release key =>
      change (t.release key).GatesMade
      cases hl : t.delays.lookup key with
      | none => rwa [release_of_none hl]
      | some gate' =>
        rw [released_release hl]
        refine fun gate hg => ⟨fun hm => ?_, fun key' hl' => ?_⟩
        · rcases Finset.mem_insert.mp hm with rfl | hm
          · exact (h gate hg).2 key hl
          · exact (h gate hg).1 hm
        · by_cases hk : key' = key
          · subst hk
            rw [AList.lookup_erase] at hl'
            cases hl'
          · exact (h gate hg).2 key' ((AList.lookup_erase_ne hk).symm.trans hl')
    | delay key =>
      refine fun gate hg => ⟨(h gate (Nat.le_of_succ_le hg)).1, fun key' hl => ?_⟩
      by_cases hk : key' = key
      · subst hk
        exact absurd (Option.some.inj ((AList.lookup_insert _).symm.trans hl)) (Nat.ne_of_lt hg)
      · exact (h gate (Nat.le_of_succ_le hg)).2 key' ((AList.lookup_insert_ne hk).symm.trans hl)
    | set gate' =>
      simp only [InMemoryTransport.after, inject]
      split_ifs with hlt
      · refine fun gate hg => ⟨fun hm => ?_, (h gate hg).2⟩
        rcases Finset.mem_insert.mp hm with rfl | hm
        · exact absurd hlt (Nat.not_lt.mpr hg)
        · exact (h gate hg).1 hm
      · exact h
    | dropNext key count => obtain ⟨_, h', -⟩ := after_dropNext (t := t) key count; rwa [h']
    | partition groups => obtain ⟨_, h'⟩ := after_partition (t := t) groups; rwa [h']
    | register | unregister | block | unblock | blockLink | unblockLink | healPartition => exact h

theorem GatesMade.run (h : t.GatesMade) (events : List (Event Handler)) :
    (t.run events).GatesMade := by
  induction events generalizing t with
  | nil => exact h
  | cons event events ih => exact ih (h.after event)

theorem gatesMade_init : ({} : InMemoryTransport Handler).GatesMade :=
  fun _ _ => ⟨Finset.notMem_empty _, fun _ h => by cases h⟩

theorem GatesMade.delay (h : t.GatesMade) (key : LinkKey) :
    (t.delay key).Waiting t.nextGate (some key) where
  made := Nat.lt_succ_self _
  notReleased := (h t.nextGate le_rfl).1
  lookup_iff key' := by
    by_cases hk : key' = key
    · subst hk
      exact iff_of_true (AList.lookup_insert _) rfl
    · refine iff_of_false (fun hl => ?_) (fun he => hk (Option.some.inj he).symm)
      exact (h t.nextGate le_rfl).2 key' ((AList.lookup_insert_ne hk).symm.trans hl)

namespace Waiting

variable {gate : Nat} {owner : Option LinkKey} {key : LinkKey}

theorem after (h : t.Waiting gate owner) {event : Event Handler}
    (hs : event ≠ .inject (.set gate))
    (hf : ∀ key, owner = some key → ¬ event.Frees key ∧ event ≠ .inject (.delay key)) :
    (t.after event).Waiting gate owner := by
  cases event with
  | call key => obtain ⟨_, _, h'⟩ := after_call (t := t) key; rw [h']; exact ⟨h.1, h.2, h.3⟩
  | inject fault =>
    cases fault with
    | heal =>
      have ho : owner = none := by
        cases owner with
        | none => rfl
        | some key => exact absurd trivial (hf key rfl).1
      subst ho
      refine ⟨h.made, fun hm => ?_, fun key => iff_of_false (fun hl => by cases hl)
        (fun ho => by cases ho)⟩
      rcases mem_released_heal.mp hm with hm | ⟨key, hl⟩
      · exact h.notReleased hm
      · cases (h.lookup_iff key).mp hl
    | release key' =>
      have ho : owner ≠ some key' := fun ho => (hf key' ho).1 rfl
      change (t.release key').Waiting gate owner
      cases hl : t.delays.lookup key' with
      | none => rwa [release_of_none hl]
      | some gate' =>
        have hg : gate ≠ gate' := by
          rintro rfl
          exact ho ((h.lookup_iff key').mp hl)
        rw [released_release hl]
        refine ⟨h.made, fun hm => ?_, fun key => ?_⟩
        · rcases Finset.mem_insert.mp hm with hm | hm
          · exact hg hm
          · exact h.notReleased hm
        · by_cases hk : key = key'
          · subst hk
            exact iff_of_false (fun hl' => by cases (AList.lookup_erase _ _).symm.trans hl') ho
          · rw [← h.lookup_iff key]
            exact iff_of_eq (congrArg (· = some gate) (AList.lookup_erase_ne hk))
    | delay key' =>
      have ho : owner ≠ some key' := fun ho => (hf key' ho).2 rfl
      refine ⟨Nat.lt_succ_of_lt h.made, h.notReleased, fun key => ?_⟩
      by_cases hk : key = key'
      · subst hk
        refine iff_of_false (fun hl => ?_) ho
        have hl := Option.some.inj ((AList.lookup_insert _).symm.trans hl)
        exact absurd h.made (by omega)
      · rw [← h.lookup_iff key]
        exact iff_of_eq (congrArg (· = some gate) (AList.lookup_insert_ne hk))
    | set gate' =>
      simp only [InMemoryTransport.after, inject]
      split_ifs
      · refine ⟨h.made, fun hm => ?_, h.lookup_iff⟩
        rcases Finset.mem_insert.mp hm with rfl | hm
        · exact hs rfl
        · exact h.notReleased hm
      · exact h
    | dropNext key count =>
      obtain ⟨_, h', -⟩ := after_dropNext (t := t) key count
      rw [h']
      exact ⟨h.1, h.2, h.3⟩
    | partition groups =>
      obtain ⟨_, h'⟩ := after_partition (t := t) groups
      rw [h']
      exact ⟨h.1, h.2, h.3⟩
    | register | unregister | block | unblock | blockLink | unblockLink | healPartition =>
      exact ⟨h.1, h.2, h.3⟩

/-- Behind a second `delay` of its key nobody waits for the gate any more but who waited before. -/
theorem delay (h : t.Waiting gate (some key)) : (t.delay key).Waiting gate none where
  made := Nat.lt_succ_of_lt h.made
  notReleased := h.notReleased
  lookup_iff key' := by
    refine iff_of_false (fun hl => ?_) (fun ho => by cases ho)
    by_cases hk : key' = key
    · subst hk
      have hl := Option.some.inj ((AList.lookup_insert _).symm.trans hl)
      exact absurd h.made (by omega)
    · have hl := (h.lookup_iff key').mp ((AList.lookup_insert_ne hk).symm.trans hl)
      exact hk (Option.some.inj hl).symm

theorem freed (h : t.Waiting gate (some key)) {event : Event Handler} (hf : event.Frees key) :
    gate ∈ (t.after event).released := by
  have hl : t.delays.lookup key = some gate := (h.lookup_iff key).mpr rfl
  cases event with
  | call => exact hf.elim
  | inject fault =>
    cases fault with
    | heal => exact mem_released_heal.mpr (.inr ⟨key, hl⟩)
    | release key' =>
      cases hf
      change gate ∈ (t.release key).released
      rw [released_release hl]
      exact Finset.mem_insert_self _ _
    | _ => exact hf.elim

theorem run_none {events : List (Event Handler)} (hs : .inject (.set gate) ∉ events)
    (h : t.Waiting gate none) : gate ∉ (t.run events).released := by
  induction events generalizing t with
  | nil => exact h.notReleased
  | cons event events ih =>
    obtain ⟨hse, hs'⟩ := not_or.mp (mt List.mem_cons.mpr hs)
    exact ih hs' (h.after (Ne.symm hse) fun _ ho => by cases ho)

theorem run_keeps {events : List (Event Handler)} (hs : .inject (.set gate) ∉ events)
    (hk : ∀ event ∈ events, ¬ event.Frees key ∧ event ≠ .inject (.delay key))
    (h : t.Waiting gate (some key)) : (t.run events).Waiting gate (some key) := by
  induction events generalizing t with
  | nil => exact h
  | cons event events ih =>
    obtain ⟨hse, hs'⟩ := not_or.mp (mt List.mem_cons.mpr hs)
    obtain ⟨hke, hk⟩ := List.forall_mem_cons.mp hk
    refine ih hs' hk (h.after (Ne.symm hse) fun key' hk' => ?_)
    cases hk'
    exact hke

theorem mem_released_iff {events : List (Event Handler)} (hs : .inject (.set gate) ∉ events)
    (h : t.Waiting gate (some key)) :
    gate ∈ (t.run events).released ↔
      ∃ before event later, events = before ++ event :: later ∧
        event.Frees key ∧ .inject (.delay key) ∉ before := by
  induction events generalizing t with
  | nil =>
    refine iff_of_false h.notReleased ?_
    rintro ⟨before, _, _, he, -⟩
    cases before <;> cases he
  | cons event events ih =>
    obtain ⟨hse, hs'⟩ := not_or.mp (mt List.mem_cons.mpr hs)
    by_cases hf : event.Frees key
    · refine iff_of_true (mem_released_run events (h.freed hf)) ?_
      exact ⟨[], event, events, rfl, hf, List.not_mem_nil⟩
    by_cases hd : event = .inject (.delay key)
    · subst hd
      have hn : gate ∉ ((t.delay key).run events).released := h.delay.run_none hs'
      refine iff_of_false hn ?_
      rintro ⟨before, e, later, he, hfe, hb⟩
      cases before with
      | nil => cases he; exact hf hfe
      | cons b before => cases he; exact hb List.mem_cons_self
    · have h' : (t.after event).Waiting gate (some key) := by
        refine h.after (Ne.symm hse) fun key' hk' => ?_
        cases hk'
        exact ⟨hf, hd⟩
      rw [run, ih hs' h']
      constructor
      · rintro ⟨before, e, later, rfl, hfe, hb⟩
        refine ⟨event :: before, e, later, rfl, hfe, fun hm => ?_⟩
        rcases List.mem_cons.mp hm with hm | hm
        · exact hd hm.symm
        · exact hb hm
      · rintro ⟨before, e, later, he, hfe, hb⟩
        cases before with
        | nil => cases he; exact absurd hfe hf
        | cons b before =>
          cases he
          exact ⟨before, e, later, rfl, hfe, fun hm => hb (List.mem_cons_of_mem _ hm)⟩

end Waiting

theorem gate_of_ok {key : LinkKey} {node : Handler} {gate : Option Nat}
    (h : (t.getNode key).1 = .ok (node, gate)) : gate = t.delays.lookup key := by
  simp only [getNode] at h
  split_ifs at h
  cases hl : (t.count key).nodes.lookup key.target with
  | none => rw [hl] at h; cases h
  | some node' => rw [hl] at h; cases h; rfl

/-- The gate that `delay` makes, in any run that nobody sets it in by hand: it is set behind the
first `heal` or `release` of its key, unless the key was delayed again before that.  Then it is
never set, not by `heal` either, and a call that waits for it waits for ever.  As long as none of
the three has come, every call of the key that finds its target waits for this gate. -/
theorem gate_opens {t : InMemoryTransport Handler} {earlier events : List (Event Handler)}
    {key : LinkKey} (ht : ({} : InMemoryTransport Handler).run earlier = t)
    (hs : .inject (.set t.nextGate) ∉ events) :
    (t.nextGate ∈ ((t.delay key).run events).released ↔
      ∃ before event later, events = before ++ event :: later ∧
        event.Frees key ∧ .inject (.delay key) ∉ before) ∧
    ((∀ event ∈ events, ¬ event.Frees key ∧ event ≠ .inject (.delay key)) →
      ∀ node gate, (((t.delay key).run events).getNode key).1 = .ok (node, gate) →
        gate = some t.nextGate ∧ t.nextGate ∉ ((t.delay key).run events).released) := by
  have hm : t.GatesMade := ht ▸ gatesMade_init.run earlier
  have h : (t.delay key).Waiting t.nextGate (some key) := hm.delay key
  refine ⟨h.mem_released_iff hs, fun hk node gate hc => ?_⟩
  have hw := h.run_keeps hs hk
  exact ⟨(gate_of_ok hc).trans ((hw.lookup_iff key).mpr rfl), hw.notReleased⟩

theorem gate_opens_heal :
    0 ∈ ((({} : InMemoryTransport Unit).delay votes).run
      [.call votes, .inject .heal, .inject (.delay votes)]).released := by
  have h := @gate_opens Unit {} [] [.call votes, .inject .heal, .inject (.delay votes)] votes rfl
    (by simp)
  exact h.1.mpr ⟨[.call votes], .inject .heal, _, rfl, trivial, by simp⟩

end InMemoryTransport

end PyRaftKv
