/-
# `transport/serialization.py` and `api/raft.py`: decoding what is posted

Each decoder reads the fields of a JSON value one after the other, in the order of the source.  A
route catches `KeyError`, `TypeError` and `ValueError`, and answers 400; any other exception leaves
it.

`Journal.lean` decodes what a node has written itself.  Here the value is any JSON value.
-/
import PyRaftKv.Formats.Python
import PyRaftKv.Raft.State

namespace PyRaftKv

open Formats PyJson

variable (py : Interpreter)

/-! ## 1. Decoders -/

/-- `request_vote_from_dict`. -/
def requestVoteFromDict (data : PyJson) : Except PyError RequestVoteRequest := do
  let term ← data.getItem "term" >>= toInt py
  let candidateId ← data.getItem "candidate_id" >>= toText py
  let lastLogIndex ← data.getItem "last_log_index" >>= toInt py
  let lastLogTerm ← data.getItem "last_log_term" >>= toInt py
  return { term, candidateId, lastLogIndex, lastLogTerm }

/-- `str(value)`, if the value is not `None`. -/
def optionalText : PyJson → Except PyError (Option String)
  | .null => .ok none
  | value => do
    let text ← toText py value
    return some text

/-- `command_from_dict`. -/
def commandFromDict (data : PyJson) : Except PyError RaftCommand := do
  let value ← data.getD "value" .null >>= optionalText py
  let operation ← data.getItem "operation" >>= toText py
  let key ← data.getItem "key" >>= toText py
  return { operation := .ofText operation, key, value }

/-- `log_entry_from_dict`. -/
def logEntryFromDict (data : PyJson) : Except PyError LogEntry := do
  let index ← data.getItem "index" >>= toInt py
  let term ← data.getItem "term" >>= toInt py
  let command ← data.getItem "command" >>= commandFromDict py
  return { index, term, command }

/-- `append_entries_from_dict`. -/
def appendEntriesFromDict (data : PyJson) : Except PyError AppendEntriesRequest := do
  let term ← data.getItem "term" >>= toInt py
  let leaderId ← data.getItem "leader_id" >>= toText py
  let prevLogIndex ← data.getItem "prev_log_index" >>= toInt py
  let prevLogTerm ← data.getItem "prev_log_term" >>= toInt py
  let rawEntries ← data.getD "entries" (.arr []) >>= iterate
  let entries ← rawEntries.mapM (logEntryFromDict py)
  let leaderCommit ← data.getItem "leader_commit" >>= toInt py
  return { term, leaderId, prevLogIndex, prevLogTerm, entries, leaderCommit }

/-- `timeout_now_from_dict`. -/
def timeoutNowFromDict (data : PyJson) : Except PyError TimeoutNowRequest := do
  let term ← data.getItem "term" >>= toInt py
  let leaderId ← data.getItem "leader_id" >>= toText py
  return { term, leaderId }

/-- The value of a member of the snapshot's state. -/
def stateItem (item : String × PyJson) : Except PyError (String × String) := do
  let value ← toText py item.2
  return (item.1, value)

/-- A state that is no object raises `TypeError("snapshot state must be an object")`. -/
def stateMembers : PyJson → Except PyError (List (String × PyJson))
  | .obj members => .ok members
  | _ => .error .typeError

/-- `install_snapshot_from_dict`. -/
def installSnapshotFromDict (data : PyJson) : Except PyError InstallSnapshotRequest := do
  let members ← data.getItem "state" >>= stateMembers
  let term ← data.getItem "term" >>= toInt py
  let leaderId ← data.getItem "leader_id" >>= toText py
  let lastIncludedIndex ← data.getItem "last_included_index" >>= toInt py
  let lastIncludedTerm ← data.getItem "last_included_term" >>= toInt py
  let state ← (items members).mapM (stateItem py)
  return { term, leaderId, lastIncludedIndex, lastIncludedTerm,
           state := state.foldl (fun d (key, value) => d.insert key value) ∅ }

/-! ## 2. Routes -/

/-- What a posted object comes to. -/
inductive Posted (α : Type)
  | request (request : α)
  /-- `HTTPException(status_code=400, detail=detail)`. -/
  | badRequest (detail : String)
  /-- The exception leaves the route. -/
  | raised (e : PyError)

/-- The `try` around a decoder. -/
def route {α : Type} (detail : String) : Except PyError α → Posted α
  | .ok request => .request request
  | .error e => if e.Caught then .badRequest detail else .raised e

def requestVoteRoute (payload : List (String × PyJson)) : Posted RequestVoteRequest :=
  route "Invalid RequestVote payload" (requestVoteFromDict py (.obj payload))

def appendEntriesRoute (payload : List (String × PyJson)) : Posted AppendEntriesRequest :=
  route "Invalid AppendEntries payload" (appendEntriesFromDict py (.obj payload))

def installSnapshotRoute (payload : List (String × PyJson)) : Posted InstallSnapshotRequest :=
  route "Invalid InstallSnapshot payload" (installSnapshotFromDict py (.obj payload))

def timeoutNowRoute (payload : List (String × PyJson)) : Posted TimeoutNowRequest :=
  route "Invalid TimeoutNow payload" (timeoutNowFromDict py (.obj payload))

/-- The object is decoded, or answered with 400. -/
def Posted.Answered {α : Type} : Posted α → Prop
  | .raised _ => False
  | _ => True

theorem route_answered {α : Type} (detail : String) (x : Except PyError α) :
    (route detail x).Answered ↔ Safe PyError.Caught x := by
  cases x with
  | ok request => exact iff_of_true trivial (fun e he => nomatch he)
  | error e =>
    by_cases he : e.Caught
    · simp only [route, if_pos he]
      refine iff_of_true trivial ?_
      rintro e' ⟨⟩
      exact he
    · simp only [route, if_neg he]
      exact iff_of_false id fun h => he (h e rfl)

/-! ## 3. What the decoders read -/

def requestVoteRulings (data : PyJson) : List Ruling :=
  intField py "term" data ++ textField py "candidate_id" data ++
    intField py "last_log_index" data ++ intField py "last_log_term" data

/-- The value of a command, which may be missing. -/
def valueRulings : PyJson → List Ruling
  | .null => []
  | value => [textRuling py value]

/-- A command that is no object fails at `data.get`. -/
def commandRulings : PyJson → List Ruling
  | .obj members => valueRulings py ((lookup members "value").getD .null) ++
      textField py "operation" (.obj members) ++ textField py "key" (.obj members)
  | _ => [.fatal]

def logEntryRulings (data : PyJson) : List Ruling :=
  intField py "index" data ++ intField py "term" data ++
    fieldRulings (commandRulings py) "command" data

/-- The entries of a request, which may be missing. -/
def entriesRulings : PyJson → List Ruling
  | .obj members =>
    match iterate ((lookup members "entries").getD (.arr [])) with
    | .ok rawEntries => rawEntries.flatMap (logEntryRulings py)
    | .error _ => [.refused]
  | _ => [.fatal]

def appendEntriesRulings (data : PyJson) : List Ruling :=
  intField py "term" data ++ textField py "leader_id" data ++ intField py "prev_log_index" data ++
    intField py "prev_log_term" data ++ entriesRulings py data ++ intField py "leader_commit" data

def timeoutNowRulings (data : PyJson) : List Ruling :=
  intField py "term" data ++ textField py "leader_id" data

/-- `isinstance(raw_state, dict)`. -/
def objectRuling : PyJson → List Ruling
  | .obj _ => []
  | _ => [.refused]

/-- The values of the state. -/
def stateRulings (data : PyJson) : List Ruling :=
  match data.getItem "state" >>= stateMembers with
  | .ok members => (items members).flatMap fun item => [textRuling py item.2]
  | .error _ => []

/-- The state is looked at first, and read last. -/
def installSnapshotRulings (data : PyJson) : List Ruling :=
  fieldRulings objectRuling "state" data ++ intField py "term" data ++
    textField py "leader_id" data ++ intField py "last_included_index" data ++
    intField py "last_included_term" data ++ stateRulings py data

/-! ## 4. Every decoder -/

section

variable (data : PyJson)

theorem requestVoteFromDict_judged :
    Judged PyError.Caught (requestVoteFromDict py data) (requestVoteRulings py data) := by
  unfold requestVoteFromDict requestVoteRulings
  rw [List.append_assoc, List.append_assoc]
  refine (judged_intField py "term" data).bind fun term _ => ?_
  refine (judged_textField py "candidate_id" data).bind fun candidateId _ => ?_
  refine (judged_intField py "last_log_index" data).bind fun lastLogIndex _ => ?_
  exact (judged_intField py "last_log_term" data).answer _

theorem optionalText_judged (value : PyJson) :
    Judged PyError.Caught (optionalText py value) (valueRulings py value) := by
  cases value with
  | null => exact .ok none
  | _ => exact (judged_toText py _).answer some

theorem commandFromDict_judged :
    Judged PyError.Caught (commandFromDict py data) (commandRulings py data) := by
  cases data with
  | obj members =>
    unfold commandFromDict
    simp only [commandRulings, List.append_assoc]
    refine (optionalText_judged py _).bind fun value _ => ?_
    refine (judged_textField py "operation" _).bind fun operation _ => ?_
    exact (judged_textField py "key" _).answer _
  | _ => exact .fatal id

theorem logEntryFromDict_judged :
    Judged PyError.Caught (logEntryFromDict py data) (logEntryRulings py data) := by
  unfold logEntryFromDict logEntryRulings
  rw [List.append_assoc]
  refine (judged_intField py "index" data).bind fun index _ => ?_
  refine (judged_intField py "term" data).bind fun term _ => ?_
  exact (judged_field (commandFromDict_judged py) "command" data).answer _

theorem entries_judged : Judged PyError.Caught
    (data.getD "entries" (.arr []) >>= iterate >>= fun rawEntries =>
      rawEntries.mapM (logEntryFromDict py)) (entriesRulings py data) := by
  cases data with
  | obj members =>
    simp only [entriesRulings, getD]
    change Judged _ (iterate ((lookup members "entries").getD (.arr [])) >>= _) _
    generalize (lookup members "entries").getD (.arr []) = value
    cases value with
    | arr items => exact judged_mapM (logEntryFromDict_judged py) items
    | str s => exact judged_mapM (logEntryFromDict_judged py) _
    | obj members => exact judged_mapM (logEntryFromDict_judged py) _
    | _ => exact .refused trivial
  | _ => exact .fatal id

theorem appendEntriesFromDict_judged :
    Judged PyError.Caught (appendEntriesFromDict py data) (appendEntriesRulings py data) := by
  unfold appendEntriesFromDict appendEntriesRulings
  simp only [List.append_assoc]
  refine (judged_intField py "term" data).bind fun term _ => ?_
  refine (judged_textField py "leader_id" data).bind fun leaderId _ => ?_
  refine (judged_intField py "prev_log_index" data).bind fun prevLogIndex _ => ?_
  refine (judged_intField py "prev_log_term" data).bind fun prevLogTerm _ => ?_
  have hrest : ∀ entries, Judged PyError.Caught (do
      let leaderCommit ← data.getItem "leader_commit" >>= toInt py
      return ({ term, leaderId, prevLogIndex, prevLogTerm, entries, leaderCommit } :
        AppendEntriesRequest)) (intField py "leader_commit" data) :=
    fun entries => (judged_intField py "leader_commit" data).answer _
  have h := (entries_judged py data).bind fun entries _ => hrest entries
  simpa only [bind_assoc] using h

theorem timeoutNowFromDict_judged :
    Judged PyError.Caught (timeoutNowFromDict py data) (timeoutNowRulings py data) := by
  unfold timeoutNowFromDict timeoutNowRulings
  refine (judged_intField py "term" data).bind fun term _ => ?_
  exact (judged_textField py "leader_id" data).answer _

theorem stateItem_judged (item : String × PyJson) :
    Judged PyError.Caught (stateItem py item) [textRuling py item.2] :=
  (judged_toText py item.2).answer _

theorem stateMembers_judged (value : PyJson) :
    Judged PyError.Caught (stateMembers value) (objectRuling value) := by
  cases value with
  | obj members => exact .ok members
  | _ => exact .refused trivial

theorem installSnapshotFromDict_judged :
    Judged PyError.Caught (installSnapshotFromDict py data) (installSnapshotRulings py data) := by
  unfold installSnapshotFromDict installSnapshotRulings
  simp only [List.append_assoc]
  refine (judged_field stateMembers_judged "state" data).bind fun members hmembers => ?_
  refine (judged_intField py "term" data).bind fun term _ => ?_
  refine (judged_textField py "leader_id" data).bind fun leaderId _ => ?_
  refine (judged_intField py "last_included_index" data).bind fun lastIncludedIndex _ => ?_
  refine (judged_intField py "last_included_term" data).bind fun lastIncludedTerm _ => ?_
  unfold stateRulings
  rw [hmembers]
  exact (judged_mapM (stateItem_judged py) (items members)).answer _

end

end PyRaftKv
