import PyRaftKv.Guarantees.Agreement
import PyRaftKv.Guarantees.Recovery
import PyRaftKv.Guarantees.Writes
import PyRaftKv.Guarantees.Nodes
import PyRaftKv.Guarantees.Rejections
import PyRaftKv.Formats.Json
import PyRaftKv.Formats.Lines
import PyRaftKv.Formats.RoundTrip
import PyRaftKv.Guarantees.Engine
import PyRaftKv.Guarantees.Journal
import PyRaftKv.Guarantees.Delivery
import PyRaftKv.Guarantees.CatchUp
import PyRaftKv.Guarantees.Failures
import PyRaftKv.Guarantees.Progress
import PyRaftKv.Guarantees.Reads
import PyRaftKv.Guarantees.Lease
import PyRaftKv.Guarantees.Convergence
import PyRaftKv.Guarantees.CommitRule
import PyRaftKv.Guarantees.Installing
import PyRaftKv.Guarantees.Merging
import PyRaftKv.Guarantees.Rounds
import PyRaftKv.Guarantees.Submitting
import PyRaftKv.Guarantees.Barrier
import PyRaftKv.Guarantees.Raising
import PyRaftKv.Guarantees.Redelivery
import PyRaftKv.Guarantees.Checkpoint
import PyRaftKv.Guarantees.Compaction
import PyRaftKv.Guarantees.Replay
import PyRaftKv.Guarantees.Malformed
import PyRaftKv.Guarantees.Transfer
import PyRaftKv.Guarantees.Promises
import PyRaftKv.Guarantees.Hints
import PyRaftKv.Guarantees.Exchange
import PyRaftKv.Guarantees.Restarts
import PyRaftKv.Service.Electing
import PyRaftKv.Service.Serving
import PyRaftKv.Transport.Memory
