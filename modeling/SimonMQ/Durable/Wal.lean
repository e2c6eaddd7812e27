import SimonMQ.Durable.Model
import SimonMQ.Durable.Segment

namespace SimonMQ.Durable

open SimonMQ.Go

/-! The write-ahead log: one writer at the end of the last segment, and readers
that follow the segments in order.  Every file lives in one directory, and the
list of segment names is kept in memory beside it. -/

/-- The modes that keep a log at all. -/
inductive Mode
  | sync
  | noSync
  deriving DecidableEq, Repr

inductive OpenError
  | notExist (name : GoString)
  /-- a panic in `Decode` or on a malformed segment name -/
  | panicked
  deriving DecidableEq, Repr

inductive AppendError
  | closeFailed
  | createFailed
  | writeFailed
  | syncFailed
  deriving DecidableEq, Repr

/-- The directory, the segment manager's list and the writer's fields. -/
structure Wal where
  dir : Directory
  segments : List GoString
  /-- the segment the writer has open -/
  file : GoString
  /-- a handle stays unusable once `Close` has been called on it -/
  fileOpen : Bool
  currentSize : Nat
  maxSegSize : Int
  nextLSN : UInt64
  mode : Mode

namespace Wal

/-! Opening: `refresh`, then `Recover`. -/

/-- The next LSN: after the last record, or the one the segment is named for. -/
def lsnAfter (records : List Record) (first : UInt64) : UInt64 :=
  match records.getLast? with
  | some rec => rec.lsn + 1
  | none => first

/-- `Recover` on the sorted segment list. -/
def recover (dir : Directory) (segments : List GoString) (maxSegSize : Int)
    (mode : Mode) : Except OpenError Wal :=
  match segments.getLast? with
  | none =>
      .ok {
        dir := dir.openCreate (segmentFileName 1)
        segments := segments ++ [segmentFileName 1]
        file := segmentFileName 1
        fileOpen := true
        currentSize := 0
        maxSegSize
        nextLSN := 1
        mode }
  | some last =>
      match dir.lookup last with
      | none => .error (.notExist last)
      | some content =>
          match scanSegment content, firstLSNFromSegmentName last with
          | some (records, validEnd), some first =>
              .ok {
                dir := dir.truncate last validEnd
                segments
                file := last
                fileOpen := true
                currentSize := validEnd
                maxSegSize
                nextLSN := lsnAfter records first
                mode }
          | _, _ => .error .panicked

/-- `Open`. -/
def openDir (dir : Directory) (maxSegSize : Int) (mode : Mode) : Except OpenError Wal :=
  recover dir (dir.namesWith walSuffix) maxSegSize mode

/-! Appending.  Each system call of an `Append` may fail. -/

structure AppendFaults where
  closeOk : Bool := true
  createOk : Bool := true
  /-- how many bytes of the frame a failing `Write` leaves -/
  written : Option Nat := none
  syncOk : Bool := true
  deriving DecidableEq, Repr

/-- `rec.LSN = w.nextLSN`. -/
def stamp (w : Wal) (rec : Record) : Record := { rec with lsn := w.nextLSN }

def mustRoll (w : Wal) (rec : Record) : Prop :=
  w.maxSegSize < w.currentSize + (w.stamp rec).encode.length

instance (w : Wal) (rec : Record) : Decidable (w.mustRoll rec) :=
  inferInstanceAs (Decidable (_ < _))

/-- `CreateSegment(w.nextLSN)` and the writer's switch to it. -/
def createSegment (w : Wal) : Wal :=
  { w with
    dir := w.dir.openCreate (segmentFileName w.nextLSN)
    segments := w.segments ++ [segmentFileName w.nextLSN]
    file := segmentFileName w.nextLSN
    fileOpen := true
    currentSize := 0 }

/-- `rollSegment`.  After a failed close or a failed create the writer keeps its
closed file. -/
def rollSegment (w : Wal) (faults : AppendFaults) : Except (Wal × AppendError) Wal :=
  if !w.fileOpen || !faults.closeOk then
    .error ({ w with fileOpen := false }, .closeFailed)
  else if !faults.createOk then .error ({ w with fileOpen := false }, .createFailed)
  else .ok w.createSegment

/-- The first half of `Append`: roll where the frame would pass the limit. -/
def prepare (w : Wal) (rec : Record) (faults : AppendFaults) :
    Except (Wal × AppendError) Wal :=
  if w.mustRoll rec then w.rollSegment faults else .ok w

def write (w : Wal) (bytes : Bytes) : Wal :=
  { w with dir := w.dir.appendTo w.file bytes }

def commit (w : Wal) (size : Nat) : Wal :=
  { w with currentSize := w.currentSize + size, nextLSN := w.nextLSN + 1 }

/-- `Writer.Append` under the given faults. -/
def appendWith (w : Wal) (faults : AppendFaults) (rec : Record) :
    Wal × Except AppendError UInt64 :=
  let frame := (w.stamp rec).encode
  match w.prepare rec faults with
  | .error (stuck, err) => (stuck, .error err)
  | .ok ready =>
      if !ready.fileOpen then (ready, .error .writeFailed)
      else
        match faults.written with
        | some count => (ready.write (frame.take count), .error .writeFailed)
        | none =>
            if ready.mode = .sync ∧ faults.syncOk = false then
              (ready.write frame, .error .syncFailed)
            else ((ready.write frame).commit frame.length, .ok w.nextLSN)

/-- `Writer.Append` on a file system that does not fail. -/
def append (w : Wal) (rec : Record) : Wal × Except AppendError UInt64 :=
  w.appendWith {} rec

/-! Deleting. -/

/-- `os.Remove` on each name in turn. -/
def removeAll (dir : Directory) (names : List GoString) : Directory :=
  names.foldl (fun dir name => dir.erase name) dir

/-- The last step of `DeleteSegmentsBefore`. -/
def forgetSegments (w : Wal) (names : List GoString) : Wal :=
  { w with segments := w.segments.filter (· ∉ names) }

end Wal

/-! Reading. -/

inductive ReadError
  | notExist (name : GoString)
  /-- a frame that stops short in a segment that is not the last -/
  | tornRecord (name : GoString)
  | overMaxLength (length : Nat)
  deriving DecidableEq, Repr

structure Reader where
  current : GoString
  offset : Nat
  deriving DecidableEq

inductive Fetch
  | record (rec : Record) (reader : Reader)
  | opened (reader : Reader)
  | finished
  | failed (err : ReadError)
  | panicked
  deriving DecidableEq

/-- One turn of the loop in `readNext`, against the live directory and list. -/
def Reader.fetch (dir : Directory) (segments : List GoString) (reader : Reader) : Fetch :=
  match dir.lookup reader.current with
  | none => .failed (.notExist reader.current)
  | some content =>
      match readFrame (content.drop reader.offset) with
      | .eof =>
          match segmentAfter reader.current segments with
          | none => .finished
          | some next =>
              match dir.lookup next with
              | none => .failed (.notExist next)
              | some _ => .opened ⟨next, 0⟩
      | .torn =>
          match segmentAfter reader.current segments with
          | none => .finished
          | some _ => .failed (.tornRecord reader.current)
      | .tooLong length => .failed (.overMaxLength length)
      | .invalid => .finished
      | .panics => .panicked
      | .frame rec size => .record rec ⟨reader.current, reader.offset + size⟩

inductive ReadEnd
  | finished
  | failed (err : ReadError)
  | panicked
  deriving DecidableEq

/-- The records that successive calls of `readNext` return and how they end; no
value when that takes more than `fuel` turns. -/
def Reader.drain (dir : Directory) (segments : List GoString) :
    Nat → Reader → Option (List Record × ReadEnd)
  | 0, _ => none
  | fuel + 1, reader =>
      match reader.fetch dir segments with
      | .record rec reader =>
          (reader.drain dir segments fuel).map fun drained => (rec :: drained.1, drained.2)
      | .opened reader => reader.drain dir segments fuel
      | .finished => some ([], .finished)
      | .failed err => some ([], .failed err)
      | .panicked => some ([], .panicked)

/-! Checkpoint files. -/

def ckptSuffix : GoString := lit ".ckpt"

def tmpSuffix : GoString := lit ".tmp"

/-- `%08x`. -/
def hex32 (value : UInt32) : GoString :=
  [7, 6, 5, 4, 3, 2, 1, 0].map fun place => Json.hexDigit (value.toNat / 16 ^ place % 16)

/-- `checksumFile` on a file's content. -/
def checksumFile (content : Bytes) : GoString := hex32 (checksumIEEE content)

inductive Resolved
  | records (records : List Record)
  | unusable
  /-- the checksum differs, and the file has been removed -/
  | removed
  | panicked
  deriving DecidableEq

def resolveCheckpoint (dir : Directory) (endCkpt : EndCheckpoint) : Resolved :=
  match dir.lookup endCkpt.fileName with
  | none => .unusable
  | some content =>
      if checksumFile content ≠ endCkpt.fileChecksum then .removed
      else
        match scanSegment content with
        | none => .panicked
        | some (records, validEnd) =>
            if validEnd ≠ content.length then .unusable else .records records

def splitAt (records : List Record) (lsn : UInt64) : Nat :=
  records.findIdx fun rec => lsn < rec.lsn

/-- The variables of `readLoop`. -/
structure Scan where
  records : List Record := []
  lastBeginCkptLSN : UInt64 := 0
  validCkptName : GoString := []
  validCkptLSN : UInt64 := 0
  deriving DecidableEq

namespace Scan

def reset (scan : Scan) (name : GoString) (ckptRecs : List Record) : Scan :=
  { scan with
    records := ckptRecs ++
      scan.records.drop (splitAt scan.records scan.lastBeginCkptLSN)
    validCkptName := name
    validCkptLSN := scan.lastBeginCkptLSN }

def push (scan : Scan) (rec : Record) : Scan :=
  { scan with records := scan.records ++ [rec] }

/-- The body of `readLoop` for one record; no value where a checkpoint file makes
`Decode` panic. -/
def observe (dir : Directory) (scan : Scan) (rec : Record) : Option (Directory × Scan) :=
  match rec.opType with
  | .beginCheckpoint => some (dir, { scan with lastBeginCkptLSN := rec.lsn }.push rec)
  | .endCheckpoint =>
      match decodeEndCheckpoint rec.payload with
      | none => some (dir, scan.push rec)
      | some endCkpt =>
          match resolveCheckpoint dir endCkpt with
          | .records ckptRecs => some (dir, (scan.reset endCkpt.fileName ckptRecs).push rec)
          | .unusable => some (dir, scan.push rec)
          | .removed => some (dir.erase endCkpt.fileName, scan.push rec)
          | .panicked => none
  | _ => some (dir, scan.push rec)

end Scan

inductive LoopStep
  | running (dir : Directory) (reader : Reader) (scan : Scan)
  | returned (dir : Directory) (scan : Scan)
  | failed (err : ReadError)
  | panicked

/-- One turn of `readLoop`; `upto` is the LSN that `ReadUpTo` stops at. -/
def loopStep (segments : List GoString) (upto : Option UInt64) (dir : Directory)
    (reader : Reader) (scan : Scan) : LoopStep :=
  match reader.fetch dir segments with
  | .opened reader => .running dir reader scan
  | .finished => .returned dir scan
  | .failed err => .failed err
  | .panicked => .panicked
  | .record rec reader =>
      match scan.observe dir rec with
      | none => .panicked
      | some (dir, scan) =>
          if upto.any (· ≤ rec.lsn) then .returned dir scan else .running dir reader scan

/-- `readLoop`; no value when it takes more than `fuel` turns. -/
def readLoop (segments : List GoString) (upto : Option UInt64) :
    Nat → Directory → Reader → Scan → Option LoopStep
  | 0, _, _, _ => none
  | fuel + 1, dir, reader, scan =>
      match loopStep segments upto dir reader scan with
      | .running dir reader scan => readLoop segments upto fuel dir reader scan
      | done => some done

theorem readLoop_mono {segments : List GoString} {upto : Option UInt64}
    {dir : Directory} {reader : Reader} {scan : Scan} {done : LoopStep} {fuel more : Nat}
    (hloop : readLoop segments upto fuel dir reader scan = some done)
    (hfuel : fuel ≤ more) : readLoop segments upto more dir reader scan = some done := by
  induction fuel generalizing more dir reader scan with
  | zero => simp [readLoop] at hloop
  | succ fuel ih =>
      obtain ⟨more, rfl⟩ : ∃ rest, more = rest + 1 := ⟨more - 1, by omega⟩
      rw [readLoop] at hloop ⊢
      cases hstep : loopStep segments upto dir reader scan with
      | running dir reader scan =>
          rw [hstep] at hloop
          exact ih hloop (by omega)
      | returned dir scan =>
          rw [hstep] at hloop
          exact hloop
      | failed err =>
          rw [hstep] at hloop
          exact hloop
      | panicked =>
          rw [hstep] at hloop
          exact hloop

namespace Wal

/-- The checkpoint files `DeleteCheckpointFilesExcept` removes. -/
def staleCheckpoints (dir : Directory) (keepName : GoString) : List GoString :=
  (dir.namesWith ckptSuffix).filter (· ≠ keepName)

/-- `OpenReader`: at the start of the first segment. -/
def openReader (w : Wal) : Option Reader := w.segments.head?.map fun name => ⟨name, 0⟩

inductive ReadAll
  | ok (wal : Wal) (records : List Record)
  | failed (err : ReadError)
  | panicked

/-- The cleanup at the end of `WAL.ReadAll`. -/
def cleanUp (w : Wal) (scan : Scan) : Option Wal :=
  let w := { w with dir := removeAll w.dir (staleCheckpoints w.dir scan.validCkptName) }
  match segmentsBefore scan.validCkptLSN w.segments with
  | none => none
  | some stale =>
      let w := { w with dir := removeAll w.dir stale }.forgetSegments stale
      some { w with dir := removeAll w.dir (w.dir.namesWith tmpSuffix) }

/-- `WAL.ReadAll` once the scan has returned. -/
def conclude (w : Wal) (dir : Directory) (scan : Scan) : ReadAll :=
  match { w with dir }.cleanUp scan with
  | some w => .ok w scan.records
  | none => .panicked

/-- `WAL.ReadAll`; no value when reading takes more than `fuel` turns. -/
def readAll (w : Wal) (fuel : Nat) : Option ReadAll :=
  match w.openReader with
  | none => some (w.conclude w.dir {})
  | some reader =>
      match readLoop w.segments none fuel w.dir reader {} with
      | none => none
      | some (.returned dir scan) => some (w.conclude dir scan)
      | some (.failed err) => some (.failed err)
      | some _ => some .panicked

theorem readAll_mono {w : Wal} {fuel more : Nat} {result : ReadAll}
    (hread : w.readAll fuel = some result) (hfuel : fuel ≤ more) :
    w.readAll more = some result := by
  unfold readAll at hread ⊢
  cases hopen : w.openReader with
  | none =>
      rw [hopen] at hread
      exact hread
  | some reader =>
      rw [hopen] at hread
      dsimp only at hread ⊢
      cases hloop : readLoop w.segments none fuel w.dir reader {} with
      | none =>
          rw [hloop] at hread
          contradiction
      | some done =>
          rw [hloop] at hread
          rw [readLoop_mono hloop hfuel]
          exact hread

end Wal

theorem openReader_of_head {w : Wal} {name : GoString} {rest : List GoString}
    (hsegments : w.segments = name :: rest) : w.openReader = some ⟨name, 0⟩ := by
  rw [Wal.openReader, hsegments]
  rfl

end SimonMQ.Durable
