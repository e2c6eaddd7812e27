import SimonMQ.Durable.Compaction
import SimonMQ.Durable.Wal

namespace SimonMQ.Durable

open SimonMQ.Go

/-! The coordinator: calls that append one record each, and a checkpoint that runs
beside them.  One directory outlives any number of coordinators. -/

structure Config where
  maxSegSize : Int := 0
  mode : Mode := .sync
  checkpointThreshold : Int := 0

/-- The segment size that `withDefaults` settles on. -/
def Config.segSize (config : Config) : Int :=
  if config.maxSegSize = 0 then 16 * 8 * 1024 * 1024 else config.maxSegSize

/-- The threshold that `withDefaults` and `NewSegmentManagerWithThreshold` settle
on. -/
def Config.ckptThreshold (config : Config) : Int :=
  if config.checkpointThreshold < 1 then 4 else config.checkpointThreshold

/-- The calls that append to the log. -/
inductive Request
  | createQueue (queueName : GoString)
  | deleteQueue (queueName : GoString)
  | updateSubPolicy (queueName : GoString) (policy : SubPolicy)
  | deleteSubPolicy (queueName subName : GoString)
  | enqueue (queueName msgId content : GoString)
  | ack (queueName msgId subName : GoString)

inductive CallError
  | notFound (queueName : GoString)
  deriving DecidableEq

/-- `queue %s not found` where the queue does not exist. -/
def Catalog.require (cat : Catalog) (queueName : GoString) (rec : Record) :
    Except CallError Record :=
  if queueName ∈ cat then .ok rec else .error (.notFound queueName)

/-- The record that a call appends, or why it is refused.  `Append` sets the LSN. -/
def Catalog.record (cat : Catalog) : Request → Except CallError Record
  | .createQueue queueName => .ok ⟨0, .createQueue, queueName, []⟩
  | .deleteQueue queueName => cat.require queueName ⟨0, .deleteQueue, queueName, []⟩
  | .updateSubPolicy queueName policy =>
      cat.require queueName ⟨0, .updateSubPolicy, queueName, encodeSubPolicy policy⟩
  | .deleteSubPolicy queueName subName =>
      cat.require queueName
        ⟨0, .deleteSubPolicy, queueName, encodeSubPolicy { SubPolicy.zero with subName }⟩
  | .enqueue queueName msgId content =>
      match cat.lookup queueName with
      | none => .error (.notFound queueName)
      | some subList =>
          .ok ⟨0, .enqueue, queueName, encodeEnqueue ⟨msgId, content, subList⟩⟩
  | .ack queueName msgId subName =>
      .ok ⟨0, .ack, queueName, encodeAck ⟨msgId, subName⟩⟩

/-- The catalog after a call whose record has been appended: `Enqueue` and `Ack` leave
it alone. -/
def Catalog.after (cat : Catalog) (rec : Record) : Catalog :=
  match rec.opType with
  | .enqueue => cat
  | .ack => cat
  | _ =>
      match cat.processRecord rec with
      | .ok cat => cat
      | .error _ => cat

inductive Phase
  /-- there is none -/
  | idle
  /-- append `BEGIN_CHECKPOINT` -/
  | spawned
  /-- open a reader -/
  | begun (lsn : UInt64)
  /-- the loop of `ReadUpTo` -/
  | reading (lsn : UInt64) (reader : Reader) (scan : Scan)
  /-- compact, and create the temporary file -/
  | fetched (lsn : UInt64) (records : List Record)
  /-- write the bytes left, then rename -/
  | writing (lsn : UInt64) (name : GoString) (left : Bytes)
  /-- append `END_CHECKPOINT` -/
  | installed (lsn : UInt64) (name checksum : GoString)
  /-- choose the segments to delete -/
  | ended (lsn : UInt64) (name : GoString)
  /-- delete the segments left, then forget all of `stale` -/
  | deletingSegments (name : GoString) (stale left : List GoString)
  /-- delete the checkpoint files left -/
  | deletingCheckpoints (left : List GoString)

structure Coordinator where
  log : Wal
  cat : Catalog
  ckptThreshold : Int
  /-- anything but idle means that the flag `checkpointing` is set -/
  checkpoint : Phase

def checkpointFileName (id : GoString) : GoString := lit "checkpoint-" ++ id ++ ckptSuffix

def beginRecord : Record := ⟨0, .beginCheckpoint, [], []⟩

def endRecord (name checksum : GoString) : Record :=
  ⟨0, .endCheckpoint, [], encodeEndCheckpoint ⟨name, checksum⟩⟩

/-- Who appends: a caller of the coordinator, or the checkpoint. -/
inductive Author
  | caller (request : Request)
  | checkpointer

/-- What a checkpoint step leaves open: how Go walks its maps, the id that the uuid
package returns, how much of a buffer one write takes. -/
structure Choices where
  order : CompactionOrder
  id : GoString
  count : Nat

namespace Coordinator

def toAppend (c : Coordinator) : Author → Option Record
  | .caller request => (c.cat.record request).toOption
  | .checkpointer =>
      match c.checkpoint with
      | .spawned => some beginRecord
      | .installed _ name checksum => some (endRecord name checksum)
      | _ => none

def maybeCheckpoint (c : Coordinator) : Coordinator :=
  match c.checkpoint with
  | .idle =>
      if c.ckptThreshold ≤ c.log.segments.length then { c with checkpoint := .spawned }
      else c
  | _ => c

def appended (c : Coordinator) (log : Wal) (rec : Record) (lsn : UInt64) :
    Author → Coordinator
  | .caller _ => { { c with log }.maybeCheckpoint with cat := c.cat.after rec }
  | .checkpointer =>
      match c.checkpoint with
      | .spawned => { c with log, checkpoint := .begun lsn }
      | .installed begin name _ => { c with log, checkpoint := .ended begin name }
      | _ => { c with log }

def appendFailed (c : Coordinator) (log : Wal) : Author → Coordinator
  | .caller _ => { c with log }
  | .checkpointer => { c with log, checkpoint := .idle }

def moved (c : Coordinator) (dir : Directory) (checkpoint : Phase) : Coordinator :=
  { c with log := { c.log with dir }, checkpoint }

/-- One step of `runCheckpoint` other than its two appends. -/
def advance (c : Coordinator) (choices : Choices) : Option Coordinator :=
  let dir := c.log.dir
  match c.checkpoint with
  | .begun lsn =>
      match c.log.openReader with
      | none => some { c with checkpoint := .fetched lsn [] }
      | some reader => some { c with checkpoint := .reading lsn reader {} }
  | .reading lsn reader scan =>
      match loopStep c.log.segments (some lsn) dir reader scan with
      | .running dir reader scan => some (c.moved dir (.reading lsn reader scan))
      | .returned dir scan => some (c.moved dir (.fetched lsn scan.records))
      | _ => some { c with checkpoint := .idle }
  | .fetched lsn records =>
      let name := checkpointFileName choices.id
      some (c.moved (dir.insert (name ++ tmpSuffix) [])
        (.writing lsn name (frames (compactRecords choices.order records))))
  | .writing lsn name [] =>
      match dir.lookup (name ++ tmpSuffix) with
      | none => some { c with checkpoint := .idle }
      | some content =>
          some (c.moved (dir.rename (name ++ tmpSuffix) name)
            (.installed lsn name (checksumFile content)))
  | .writing lsn name left =>
      some (c.moved (dir.appendTo (name ++ tmpSuffix) (left.take choices.count))
        (.writing lsn name (left.drop choices.count)))
  | .ended lsn name =>
      match segmentsBefore lsn c.log.segments with
      | none => some { c with checkpoint := .idle }
      | some stale => some { c with checkpoint := .deletingSegments name stale stale }
  | .deletingSegments name stale (segment :: left) =>
      some (c.moved (dir.erase segment) (.deletingSegments name stale left))
  | .deletingSegments name stale [] =>
      some { c with
        log := c.log.forgetSegments stale
        checkpoint := .deletingCheckpoints (Wal.staleCheckpoints dir name) }
  | .deletingCheckpoints (name :: left) =>
      some (c.moved (dir.erase name) (.deletingCheckpoints left))
  | .deletingCheckpoints [] => some { c with checkpoint := .idle }
  | _ => none

/-- The steps at which `runCheckpoint` can still give up. -/
def abandon (c : Coordinator) : Option Coordinator :=
  match c.checkpoint with
  | .idle => none
  | .ended _ _ => none
  | .deletingSegments _ _ _ => none
  | .deletingCheckpoints _ => none
  | _ => some { c with checkpoint := .idle }

end Coordinator

/-- The deletions at the end of `WAL.ReadAll`. -/
inductive Cleaning
  | checkpoints (left : List GoString)
  | segments (stale left : List GoString)
  | tmpFiles (left : List GoString)

inductive Status
  | down (dir : Directory)
  /-- in `ReplayLog`: the scan has returned -/
  | starting (log : Wal) (ckptThreshold : Int) (scan : Scan) (stage : Cleaning)
  | up (c : Coordinator)

/-- The files as a crash at this point leaves them. -/
def Status.dir : Status → Directory
  | .down dir => dir
  | .starting log _ _ _ => log.dir
  | .up c => c.log.dir

/-- The directory with its process, and every record that was ever appended. -/
structure Node where
  status : Status
  log : List Record

inductive NodeEvent
  | start (config : Config) (fuel : Nat)
  /-- one deletion of the startup, or what follows the last of a kind -/
  | clean
  | append (author : Author)
  /-- a crash inside an append, after any roll, with `cut` bytes of the frame on
  disk -/
  | crashIn (author : Author) (cut : Nat)
  | advance (choices : Choices)
  | abandon
  | crash

namespace Node

def initial : Node := ⟨.down ∅, []⟩

/-- `NewCoordinatorWithConfig`, and `ReplayLog` up to the end of its scan. -/
def start (dir : Directory) (config : Config) (fuel : Nat) : Option Status :=
  match Wal.openDir dir config.segSize config.mode with
  | .error _ => none
  | .ok w =>
      match w.openReader with
      | none => none
      | some reader =>
          match readLoop w.segments none fuel w.dir reader {} with
          | some (.returned dir scan) =>
              some (.starting { w with dir } config.ckptThreshold scan
                (.checkpoints (Wal.staleCheckpoints dir scan.validCkptName)))
          | _ => none

/-- The rest of `ReplayLog`; a log that does not replay ends the process. -/
def clean (log : Wal) (ckptThreshold : Int) (scan : Scan) : Cleaning → Option Status
  | .checkpoints (name :: left) =>
      some (.starting { log with dir := log.dir.erase name } ckptThreshold scan
        (.checkpoints left))
  | .checkpoints [] =>
      match segmentsBefore scan.validCkptLSN log.segments with
      | none => none
      | some stale => some (.starting log ckptThreshold scan (.segments stale stale))
  | .segments stale (segment :: left) =>
      some (.starting { log with dir := log.dir.erase segment } ckptThreshold scan
        (.segments stale left))
  | .segments stale [] =>
      some (.starting (log.forgetSegments stale) ckptThreshold scan
        (.tmpFiles (log.dir.namesWith tmpSuffix)))
  | .tmpFiles (name :: left) =>
      some (.starting { log with dir := log.dir.erase name } ckptThreshold scan
        (.tmpFiles left))
  | .tmpFiles [] =>
      match Replayed.replay {} scan.records with
      | .ok replayed => some (.up ⟨log, replayed.cat, ckptThreshold, .idle⟩)
      | .error _ => some (.down log.dir)

def step (s : Node) : NodeEvent → Option Node
  | .start config fuel =>
      match s.status with
      | .down dir => (start dir config fuel).map fun status => { s with status }
      | _ => none
  | .clean =>
      match s.status with
      | .starting log ckptThreshold scan stage =>
          (clean log ckptThreshold scan stage).map fun status => { s with status }
      | _ => none
  | .append author =>
      match s.status with
      | .up c =>
          match c.toAppend author with
          | none => none
          | some rec =>
              match c.log.append rec with
              | (log, .ok lsn) =>
                  some ⟨.up (c.appended log rec lsn author), s.log ++ [c.log.stamp rec]⟩
              | (log, .error _) => some { s with status := .up (c.appendFailed log author) }
      | _ => none
  | .crashIn author cut =>
      match s.status with
      | .up c =>
          match c.toAppend author with
          | none => none
          | some rec =>
              match c.log.prepare rec {} with
              | .error _ => none
              | .ok ready =>
                  let frame := (c.log.stamp rec).encode
                  some {
                    status := .down (ready.write (frame.take cut)).dir
                    log := if frame.length ≤ cut then s.log ++ [c.log.stamp rec] else s.log }
      | _ => none
  | .advance choices =>
      match s.status with
      | .up c => (c.advance choices).map fun c => { s with status := .up c }
      | _ => none
  | .abandon =>
      match s.status with
      | .up c => c.abandon.map fun c => { s with status := .up c }
      | _ => none
  | .crash => some { s with status := .down s.status.dir }

end Node

end SimonMQ.Durable
