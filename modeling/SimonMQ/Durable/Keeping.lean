import SimonMQ.Durable.Disk
import SimonMQ.Durable.Listing

namespace SimonMQ.Durable

open SimonMQ.Go

/-! What each step of a checkpoint can rely on, and that appends between its steps
take nothing of that away. -/

structure Begun (records : List Record) (lsn : UInt64) : Prop where
  found : lastBegin records = lsn.toNat
  positive : lsn.toNat ≠ 0

/-- Where the front of the log is gone, a checkpoint survives that was whole before
the `BEGIN` record at `lsn`. -/
def Rooted (dir : Directory) (dropped records : List Record) (lsn : UInt64) : Prop :=
  dropped = [] ∨ ∃ front name begin, front <+: records ∧
    dropped.length + front.length < lsn.toNat ∧ Anchor dir front name begin

/-- A checkpoint file name that the log does not mention yet. -/
structure Unused (log : List Record) (name : GoString) : Prop where
  suffix : hasSuffix name ckptSuffix
  valid : Utf8.Valid name
  unmentioned : ∀ rec ∈ log, ∀ endCkpt, rec.endCkpt = some endCkpt →
    endCkpt.fileName ≠ name

/-- The reader has followed a plain list up to a point before `lsn`. -/
def Following (w : Wal) (dropped : List Record) (closed : List (List Record))
    (active : List Record) (lsn : UInt64) (reader : Reader) (scan : Scan) : Prop :=
  w.segments = segmentNames (dropped.length + 1) closed ∧
    ∃ seen remaining, Position (dropped.length + 1) closed active reader remaining ∧
      seen ++ remaining = closed.flatten ++ active ∧
      scan = seen.foldl (Scan.next w.dir) {} ∧ dropped.length + seen.length < lsn.toNat

/-- Some of the `stale` segments are gone, and `left` are the oldest of those on disk;
the checkpoint `name` covers them. -/
def Sweeping (w : Wal) (dropped : List Record) (closed : List (List Record))
    (active : List Record) (name : GoString) (stale left : List GoString) : Prop :=
  ∃ gone front rest, stale = gone ++ left ∧
    w.segments = gone ++ segmentNames (dropped.length + 1) closed ∧
    (∀ segment ∈ gone, ∃ position, position < dropped.length + 1 ∧
      segment = segName position) ∧
    closed = front ++ rest ∧
    left = (closedFiles (dropped.length + 1) front).map Prod.fst ∧
    (front = [] ∨ ∃ lsn, Anchor w.dir (closed.flatten ++ active) name lsn ∧
      dropped.length + 1 + front.flatten.length ≤ lsn)

/-- What holds at each step of a checkpoint. -/
def Phase.Keeps (phase : Phase) (w : Wal) (log dropped : List Record)
    (closed : List (List Record)) (active : List Record) : Prop :=
  let base := dropped.length + 1
  let records := closed.flatten ++ active
  match phase with
  | .idle => Listing w base closed active
  | .spawned => Listing w base closed active
  | .begun lsn => Begun records lsn ∧ Rooted w.dir dropped records lsn ∧
      (w.segments = segmentNames base closed ∨
        ∃ stop, stop ≤ lsn.toNat ∧ Doubled w.segments base closed stop)
  | .reading lsn reader scan => Begun records lsn ∧ Rooted w.dir dropped records lsn ∧
      (Following w dropped closed active lsn reader scan ∨
        Looping w.segments base closed lsn.toNat reader)
  | .fetched lsn found => Begun records lsn ∧ w.segments = segmentNames base closed ∧
      Stands log lsn.toNat found
  | .writing lsn name left => Begun records lsn ∧ w.segments = segmentNames base closed ∧
      Unused log name ∧ ∃ found written, Stands log lsn.toNat found ∧
        w.dir.lookup (name ++ tmpSuffix) = some written ∧ written ++ left = frames found
  | .installed lsn name checksum => Begun records lsn ∧
      w.segments = segmentNames base closed ∧ Unused log name ∧
      ∃ found, Stands log lsn.toNat found ∧ w.dir.lookup name = some (frames found) ∧
        checksum = checksumFile (frames found)
  | .ended lsn name => w.segments = segmentNames base closed ∧
      Anchor w.dir records name lsn.toNat
  | .deletingSegments name stale left => Sweeping w dropped closed active name stale left ∧
      ∃ lsn, Anchor w.dir records name lsn
  | .deletingCheckpoints left => w.segments = segmentNames base closed ∧
      (∀ name ∈ left, hasSuffix name ckptSuffix) ∧
      ∃ name lsn, Anchor w.dir records name lsn ∧ name ∉ left

/-! Appends. -/

section Growth

variable {w after : Wal} {log dropped : List Record} {closed closed' : List (List Record)}
  {active active' : List Record} {tail : Bytes} {rec : Record}

theorem Begun.concat {records : List Record} {lsn : UInt64} (hbegun : Begun records lsn)
    (hop : rec.opType ≠ .beginCheckpoint) : Begun (records ++ [rec]) lsn :=
  ⟨by rw [lastBegin_concat, if_neg hop, hbegun.found], hbegun.positive⟩

theorem Begun.le_length {dir : Directory} {lsn : UInt64}
    (hbegun : Begun (closed.flatten ++ active) lsn)
    (hdisk : Disk dir log dropped closed active tail) : lsn.toNat ≤ log.length := by
  rw [← hbegun.found, ← hdisk.lastBegin_log (by rw [hbegun.found]; exact hbegun.positive)]
  exact lastBegin_le_length hdisk.numbered List.prefix_rfl

theorem Unused.concat {name : GoString} (hunused : Unused log name)
    (hop : rec.opType ≠ .endCheckpoint) : Unused (log ++ [rec]) name where
  suffix := hunused.suffix
  valid := hunused.valid
  unmentioned := by
    intro found hfound endCkpt hend
    rcases List.mem_append.mp hfound with hold | hnew
    · exact hunused.unmentioned found hold endCkpt hend
    · rw [List.mem_singleton.mp hnew, Record.endCkpt, if_neg hop] at hend
      contradiction

theorem foldl_next_congr {dir other : Directory} {seen : List Record}
    (hsame : ∀ rec ∈ seen, ∀ endCkpt, rec.endCkpt = some endCkpt →
      other.lookup endCkpt.fileName = dir.lookup endCkpt.fileName) (scan : Scan) :
    seen.foldl (Scan.next other) scan = seen.foldl (Scan.next dir) scan := by
  induction seen generalizing scan with
  | nil => rfl
  | cons rec seen ih =>
      have hcheckpoint : checkpointOf other rec = checkpointOf dir rec := by
        apply checkpointOf_congr
        intro hop endCkpt hdecode
        exact hsame rec List.mem_cons_self endCkpt (by simp [Record.endCkpt, hop, hdecode])
      have hnext : Scan.next other scan rec = Scan.next dir scan rec := by
        unfold Scan.next
        rw [hcheckpoint]
      rw [List.foldl_cons, List.foldl_cons, hnext]
      exact ih (fun later hmem => hsame later (List.mem_cons_of_mem _ hmem)) _

theorem Disk.anchor_suffix {dir : Directory} {name : GoString} {lsn : Nat}
    (hdisk : Disk dir log dropped closed active tail)
    (hanchor : Anchor dir (closed.flatten ++ active) name lsn) :
    hasSuffix name ckptSuffix := by
  obtain ⟨found, hfound, endCkpt, hend, rfl⟩ := hdisk.anchor_named hanchor
  exact hdisk.named found hfound endCkpt hend

theorem Grows.anchor {name : GoString} {lsn : Nat}
    (hgrows : Grows w (dropped.length + 1) closed active rec after closed' active')
    (hdisk : Disk w.dir log dropped closed active tail)
    (hother : ∀ name, ¬ hasSuffix name walSuffix →
      after.dir.lookup name = w.dir.lookup name)
    (hanchor : Anchor w.dir (closed.flatten ++ active) name lsn) :
    Anchor after.dir (closed'.flatten ++ active') name lsn := by
  rw [hgrows.records]
  have hsame := hother name (not_wal_of_ckpt (hdisk.anchor_suffix hanchor))
  exact (hanchor.congr hsame).mono (List.prefix_append _ _)

theorem Grows.rooted {lsn : UInt64}
    (hgrows : Grows w (dropped.length + 1) closed active rec after closed' active')
    (hdisk : Disk w.dir log dropped closed active tail)
    (hother : ∀ name, ¬ hasSuffix name walSuffix →
      after.dir.lookup name = w.dir.lookup name)
    (hrooted : Rooted w.dir dropped (closed.flatten ++ active) lsn) :
    Rooted after.dir dropped (closed'.flatten ++ active') lsn := by
  rcases hrooted with hnil | ⟨front, name, begin, hfront, hearly, hanchor⟩
  · exact .inl hnil
  · have hsuffix := hdisk.anchor_suffix (hanchor.mono hfront)
    refine .inr ⟨front, name, begin, ?_, hearly,
      hanchor.congr (hother name (not_wal_of_ckpt hsuffix))⟩
    rw [hgrows.records]
    exact hfront.trans (List.prefix_append _ _)

theorem Phase.Keeps.grow {phase : Phase} (hkeeps : phase.Keeps w log dropped closed active)
    (hgrows : Grows w (dropped.length + 1) closed active rec after closed' active')
    (hlive : Live w (dropped.length + 1) closed active)
    (hafter : Live after (dropped.length + 1) closed' active')
    (hsize : after.maxSegSize = w.maxSegSize)
    (hdisk : Disk w.dir log dropped closed active tail)
    (hother : ∀ name, ¬ hasSuffix name walSuffix →
      after.dir.lookup name = w.dir.lookup name)
    (hbegin : rec.opType ≠ .beginCheckpoint) (hend : rec.opType ≠ .endCheckpoint)
    (hawake : phase ≠ .idle → active ≠ []) :
    phase.Keeps after (log ++ [w.stamp rec]) dropped closed' active' := by
  have hle : log <+: log ++ [w.stamp rec] := List.prefix_append _ _
  have hlists : active ≠ [] → w.segments = segmentNames (dropped.length + 1) closed →
      after.segments = segmentNames (dropped.length + 1) closed' := by
    intro hnonempty hsegments
    have hnone : w.segments = [] ++ segmentNames (dropped.length + 1) closed := hsegments
    exact hgrows.lists hnonempty hnone
  have hbegun : ∀ {lsn}, Begun (closed.flatten ++ active) lsn →
      Begun (closed'.flatten ++ active') lsn := by
    intro lsn hbegun
    rw [hgrows.records]
    exact hbegun.concat hbegin
  have hstands : ∀ {lsn : UInt64} {found}, Begun (closed.flatten ++ active) lsn →
      Stands log lsn.toNat found → Stands (log ++ [w.stamp rec]) lsn.toNat found :=
    fun hbegun hstands => hstands.mono hle (hbegun.le_length hdisk)
  cases phase with
  | idle => exact hgrows.listing hlive hafter hsize hkeeps
  | spawned => exact hgrows.listing hlive hafter hsize hkeeps
  | begun lsn =>
      have hnonempty := hawake (by simp)
      refine ⟨hbegun hkeeps.1, hgrows.rooted hdisk hother hkeeps.2.1, ?_⟩
      rcases hkeeps.2.2 with hplain | ⟨stop, hstop, hdoubled⟩
      · exact .inl (hlists hnonempty hplain)
      · exact .inr ⟨stop, hstop, hgrows.doubled hnonempty hdoubled⟩
  | reading lsn reader scan =>
      have hnonempty := hawake (by simp)
      refine ⟨hbegun hkeeps.1, hgrows.rooted hdisk hother hkeeps.2.1, ?_⟩
      rcases hkeeps.2.2 with
        ⟨hplain, seen, remaining, hposition, hseen, hscan, hearly⟩ | hloop
      · refine .inl ⟨hlists hnonempty hplain, seen, remaining ++ [w.stamp rec],
          hgrows.position hposition, ?_, ?_, hearly⟩
        · rw [← List.append_assoc, hseen, hgrows.records]
        · rw [hscan]
          symm
          apply foldl_next_congr
          intro found hfound endCkpt hfoundEnd
          have hmem : found ∈ log := by
            apply hdisk.mem_log
            rw [← hseen]
            exact List.mem_append_left _ hfound
          exact hother _ (not_wal_of_ckpt (hdisk.named found hmem endCkpt hfoundEnd))
      · exact .inr (hgrows.looping hnonempty hloop)
  | fetched lsn found =>
      exact ⟨hbegun hkeeps.1, hlists (hawake (by simp)) hkeeps.2.1,
        hstands hkeeps.1 hkeeps.2.2⟩
  | writing lsn name left =>
      obtain ⟨hbegan, hplain, hunused, found, written, hfound, hwritten, hleft⟩ := hkeeps
      refine ⟨hbegun hbegan, hlists (hawake (by simp)) hplain, hunused.concat hend, found,
        written, hstands hbegan hfound, ?_, hleft⟩
      rw [hother _ (not_wal_of_tmp (hasSuffix_append name tmpSuffix)), hwritten]
  | installed lsn name checksum =>
      obtain ⟨hbegan, hplain, hunused, found, hfound, hfile, hchecksum⟩ := hkeeps
      refine ⟨hbegun hbegan, hlists (hawake (by simp)) hplain, hunused.concat hend, found,
        hstands hbegan hfound, ?_, hchecksum⟩
      rw [hother _ (not_wal_of_ckpt hunused.suffix), hfile]
  | ended lsn name =>
      exact ⟨hlists (hawake (by simp)) hkeeps.1, hgrows.anchor hdisk hother hkeeps.2⟩
  | deletingSegments name stale left =>
      have hnonempty := hawake (by simp)
      obtain ⟨⟨gone, front, rest, hstale, hsegments, hgone, hclosed, hleft, hcovered⟩,
        lsn, hanchor⟩ := hkeeps
      obtain ⟨rest', hrest'⟩ : ∃ rest', closed' = front ++ rest' := by
        cases hgrows with
        | stays hroom hsame => exact ⟨rest, hclosed⟩
        | rolls hmust _ hadded =>
            exact ⟨rest ++ [active], by rw [hclosed, List.append_assoc]⟩
        | doubles hmust hempty hadded => exact ⟨rest, hclosed⟩
      refine ⟨⟨gone, front, rest', hstale, hgrows.lists hnonempty hsegments, hgone, hrest',
        hleft, ?_⟩, lsn, hgrows.anchor hdisk hother hanchor⟩
      rcases hcovered with hnil | ⟨lsn, hanchor, hlsn⟩
      · exact .inl hnil
      · exact .inr ⟨lsn, hgrows.anchor hdisk hother hanchor, hlsn⟩
  | deletingCheckpoints left =>
      obtain ⟨hplain, hsuffix, name, lsn, hanchor, hkept⟩ := hkeeps
      exact ⟨hlists (hawake (by simp)) hplain, hsuffix, name, lsn,
        hgrows.anchor hdisk hother hanchor, hkept⟩

end Growth

end SimonMQ.Durable
