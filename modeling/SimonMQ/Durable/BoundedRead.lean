import SimonMQ.Durable.Decoding

namespace SimonMQ.Durable

open SimonMQ.Go SimonMQ.Transition

/-! `ReadUpTo` on segments with any bytes in them.  Some damage is reported as an
error, some is taken for the end of the log. -/

/-- The records that `readLoop` takes from the segments in at most `fuel` turns. -/
def seen (segments : List GoString) (upto : Option UInt64) :
    Nat → Directory → Reader → Scan → List Record
  | 0, _, _, _ => []
  | fuel + 1, dir, reader, scan =>
      match reader.fetch dir segments with
      | .opened next => seen segments upto fuel dir next scan
      | .record rec next =>
          match scan.observe dir rec with
          | none => [rec]
          | some (dir, scan) =>
              if upto.any (· ≤ rec.lsn) then [rec]
              else rec :: seen segments upto fuel dir next scan
      | .finished | .failed _ | .panicked => []

/-- What stands behind the frames that a bounded read takes from a segment. -/
inductive Stop
  /-- a record with the LSN, or with a larger one, has been taken -/
  | reached
  | eof
  | torn
  | tooLong
  | invalid
  | panics
  deriving DecidableEq

/-- The valid frames up to the first one with the LSN or a larger one. -/
def framesUpTo (lsn : UInt64) (bytes : Bytes) : List Record × Stop :=
  match _hread : readFrame bytes with
  | .frame rec size =>
      if lsn ≤ rec.lsn then ([rec], .reached)
      else (framesUpTo lsn (bytes.drop size)).map (rec :: ·) id
  | .eof => ([], .eof)
  | .torn => ([], .torn)
  | .tooLong _ => ([], .tooLong)
  | .invalid => ([], .invalid)
  | .panics => ([], .panics)
termination_by bytes.length
decreasing_by
  have := readFrame_size _hread
  rw [List.length_drop]
  omega

/-- What lies before a bounded read: the frames it takes, and whether what follows them
makes it fail. -/
structure Outlook where
  frames : List Record
  fails : Bool
  deriving DecidableEq

def Outlook.behind (frames : List Record) (further : Outlook) : Outlook :=
  ⟨frames ++ further.frames, further.fails⟩

/-- A checksum that does not match is taken for the end of the log, in every segment; a
frame cut short only in the last one. -/
def Stop.fails (isLast : Bool) : Stop → Bool
  | .reached | .eof | .invalid => false
  | .torn => !isLast
  | .tooLong | .panics => true

/-- The outlook in a segment of which these bytes are left; no value when it takes in more
than `fuel` segments. -/
def outlook (dir : Directory) (segments : List GoString) (lsn : UInt64) :
    Nat → GoString → Bytes → Option Outlook
  | 0, _, _ => none
  | fuel + 1, name, bytes =>
      match framesUpTo lsn bytes with
      | (frames, .eof) =>
          match segmentAfter name segments with
          | none => some ⟨frames, false⟩
          | some next =>
              match dir.lookup next with
              | none => some ⟨frames, true⟩
              | some content =>
                  (outlook dir segments lsn fuel next content).map (.behind frames)
      | (frames, stop) => some ⟨frames, stop.fails (segmentAfter name segments).isNone⟩

def Wal.outlook (w : Wal) (lsn : UInt64) (fuel : Nat) : Option Outlook :=
  match w.segments.head? with
  | none => some ⟨[], false⟩
  | some name =>
      match w.dir.lookup name with
      | none => some ⟨[], true⟩
      | some content => Durable.outlook w.dir w.segments lsn fuel name content

section

variable {dir other : Directory} {segments : List GoString} {lsn : UInt64}

section Frames

variable {bytes : Bytes} {rec : Record} {size : Nat}

end Frames

theorem Scan.lookup_observe {scan scan' : Scan} {rec : Record}
    (hspares : rec.SparesSegments)
    (hobserve : scan.observe dir rec = some (other, scan')) {name : GoString}
    (hwal : hasSuffix name walSuffix) : other.lookup name = dir.lookup name := by
  unfold Scan.observe at hobserve
  split at hobserve
  · cases hobserve
    rfl
  · rename_i hop
    split at hobserve
    · cases hobserve
      rfl
    · rename_i endCkpt hdecode
      split at hobserve
      · cases hobserve
        rfl
      · cases hobserve
        rfl
      · cases hobserve
        rw [GoMap.lookup_erase_eq, if_neg]
        rintro rfl
        exact hspares hop endCkpt hdecode hwal
      · contradiction
  · cases hobserve
    rfl

theorem Scan.getLast?_observe {scan scan' : Scan} {rec : Record}
    (hobserve : scan.observe dir rec = some (other, scan')) :
    scan'.records.getLast? = some rec := by
  unfold Scan.observe at hobserve
  split at hobserve
  · cases hobserve
    simp [Scan.push]
  · split at hobserve
    · cases hobserve
      simp [Scan.push]
    · split at hobserve
      · cases hobserve
        simp [Scan.push]
      · cases hobserve
        simp [Scan.push]
      · cases hobserve
        simp [Scan.push]
      · contradiction
  · cases hobserve
    simp [Scan.push]



/-- Reading the segments touches checkpoint files only, and none of them makes `Decode`
panic. -/
structure Undisturbed (dir : Directory) (segments : List GoString) : Prop where
  wal : ∀ name ∈ segments, hasSuffix name walSuffix
  scans : ∀ name content, dir.lookup name = some content → ¬ hasSuffix name walSuffix →
    ∃ scanned, scanSegment content = some scanned
  spares : ∀ name ∈ segments, ∀ content, dir.lookup name = some content →
    ∀ rest, Reaches content rest → ∀ rec size, readFrame rest = .frame rec size →
      rec.SparesSegments

theorem Undisturbed.resolveCheckpoint (hfiles : Undisturbed dir segments)
    {endCkpt : EndCheckpoint} (hspares : ¬ hasSuffix endCkpt.fileName walSuffix) :
    resolveCheckpoint dir endCkpt ≠ .panicked := by
  unfold Durable.resolveCheckpoint
  cases hlookup : dir.lookup endCkpt.fileName with
  | none => simp
  | some content =>
      obtain ⟨scanned, hscanned⟩ := hfiles.scans _ content hlookup hspares
      dsimp only
      rw [hscanned]
      dsimp only
      split_ifs <;> simp

theorem Undisturbed.erase (hfiles : Undisturbed dir segments) (name : GoString) :
    Undisturbed (dir.erase name) segments := by
  have hlookup : ∀ {found content}, (dir.erase name).lookup found = some content →
      dir.lookup found = some content := by
    intro found content hfound
    rw [GoMap.lookup_erase_eq] at hfound
    split_ifs at hfound
    exact hfound
  exact {
    wal := hfiles.wal
    scans := fun found content hfound => hfiles.scans found content (hlookup hfound)
    spares := fun found hmem content hfound => hfiles.spares found hmem content (hlookup hfound) }

theorem Undisturbed.observe (hfiles : Undisturbed dir segments) {rec : Record}
    (hspares : rec.SparesSegments) (scan : Scan) :
    ∃ after scan', scan.observe dir rec = some (after, scan') ∧
      Undisturbed after segments ∧
      ∀ name ∈ segments, after.lookup name = dir.lookup name := by
  obtain ⟨after, scan', hobserve, hafter⟩ : ∃ after scan',
      scan.observe dir rec = some (after, scan') ∧ Undisturbed after segments := by
    unfold Scan.observe
    split
    · exact ⟨_, _, rfl, hfiles⟩
    · rename_i hop
      split
      · exact ⟨_, _, rfl, hfiles⟩
      · rename_i endCkpt hdecode
        have hresolved := hfiles.resolveCheckpoint (hspares hop endCkpt hdecode)
        split
        · exact ⟨_, _, rfl, hfiles⟩
        · exact ⟨_, _, rfl, hfiles⟩
        · exact ⟨_, _, rfl, hfiles.erase _⟩
        · contradiction
    · exact ⟨_, _, rfl, hfiles⟩
  exact ⟨after, scan', hobserve, hafter, fun name hmem =>
    Scan.lookup_observe hspares hobserve (hfiles.wal name hmem)⟩

end

section Loop

variable {segments : List GoString} {lsn : UInt64} {dir : Directory} {reader next : Reader}
  {scan : Scan}

/-- The loop ends as the outlook says. -/
def Foretold (segments : List GoString) (lsn : UInt64) (dir : Directory) (reader : Reader)
    (scan : Scan) (outlook : Outlook) : Prop :=
  ∃ fuel, match outlook.fails with
    | true =>
        (∃ err, readLoop segments (some lsn) fuel dir reader scan = some (.failed err)) ∨
          readLoop segments (some lsn) fuel dir reader scan = some .panicked
    | false => ∃ after scan',
        readLoop segments (some lsn) fuel dir reader scan = some (.returned after scan') ∧
          seen segments (some lsn) fuel dir reader scan = outlook.frames ∧
          scan'.records.getLast? = outlook.frames.getLast?.or scan.records.getLast?

namespace Foretold

theorem failed {err : ReadError} (hfetch : reader.fetch dir segments = .failed err)
    (frames : List Record) : Foretold segments lsn dir reader scan ⟨frames, true⟩ :=
  ⟨1, .inl ⟨err, by simp [readLoop, loopStep, hfetch]⟩⟩

theorem panicked (hfetch : reader.fetch dir segments = .panicked) (frames : List Record) :
    Foretold segments lsn dir reader scan ⟨frames, true⟩ :=
  ⟨1, .inr (by simp [readLoop, loopStep, hfetch])⟩

theorem finished (hfetch : reader.fetch dir segments = .finished) :
    Foretold segments lsn dir reader scan ⟨[], false⟩ :=
  ⟨1, dir, scan, by simp [readLoop, loopStep, hfetch], by simp [seen, hfetch], rfl⟩

theorem opened {outlook : Outlook} (hfetch : reader.fetch dir segments = .opened next)
    (hnext : Foretold segments lsn dir next scan outlook) :
    Foretold segments lsn dir reader scan outlook := by
  obtain ⟨fuel, hends⟩ := hnext
  refine ⟨fuel + 1, ?_⟩
  simpa only [readLoop, loopStep, seen, hfetch] using hends

variable {rec : Record} {after : Directory} {scan' : Scan}

theorem reached (hfetch : reader.fetch dir segments = .record rec next)
    (hobserve : scan.observe dir rec = some (after, scan')) (hreached : lsn ≤ rec.lsn) :
    Foretold segments lsn dir reader scan ⟨[rec], false⟩ := by
  refine ⟨1, after, scan', ?_, ?_, ?_⟩
  · simp [readLoop, loopStep, hfetch, hobserve, hreached]
  · simp [seen, hfetch, hobserve, hreached]
  · rw [Scan.getLast?_observe hobserve]
    rfl

theorem record {outlook : Outlook} (hfetch : reader.fetch dir segments = .record rec next)
    (hobserve : scan.observe dir rec = some (after, scan')) (hearly : ¬ lsn ≤ rec.lsn)
    (hnext : Foretold segments lsn after next scan' outlook) :
    Foretold segments lsn dir reader scan (.behind [rec] outlook) := by
  obtain ⟨fuel, hends⟩ := hnext
  have hloop : readLoop segments (some lsn) (fuel + 1) dir reader scan =
      readLoop segments (some lsn) fuel after next scan' := by
    simp [readLoop, loopStep, hfetch, hobserve, hearly]
  have hseen : seen segments (some lsn) (fuel + 1) dir reader scan =
      rec :: seen segments (some lsn) fuel after next scan' := by
    simp [seen, hfetch, hobserve, hearly]
  obtain ⟨frames, fails⟩ := outlook
  refine ⟨fuel + 1, ?_⟩
  rw [hloop, hseen]
  cases fails with
  | true => exact hends
  | false =>
      obtain ⟨last, ended, hreturned, hframes, hlast⟩ := hends
      refine ⟨last, ended, hreturned, by rw [hframes]; rfl, ?_⟩
      rw [hlast, Scan.getLast?_observe hobserve, Outlook.behind, List.singleton_append,
        List.getLast?_cons]
      cases frames.getLast? <;> rfl

end Foretold


/-- The reader stands at a frame boundary of a listed segment, with these bytes ahead. -/
structure Standing (dir : Directory) (segments : List GoString) (reader : Reader)
    (bytes : Bytes) : Prop where
  listed : reader.current ∈ segments
  content : ∃ content, dir.lookup reader.current = some content ∧
    content.drop reader.offset = bytes ∧ Reaches content bytes

namespace Standing

variable {bytes : Bytes}

theorem fetch (hstanding : Standing dir segments reader bytes) :
    reader.fetch dir segments =
      match readFrame bytes with
      | .eof =>
          match segmentAfter reader.current segments with
          | none => .finished
          | some next =>
              match dir.lookup next with
              | none => .failed (.notExist next)
              | some _ => .opened ⟨next, 0⟩
      | .torn =>
          match segmentAfter reader.current segments with
          | none => .finished
          | some _ => .failed (.tornRecord reader.current)
      | .tooLong length => .failed (.overMaxLength length)
      | .invalid => .finished
      | .panics => .panicked
      | .frame rec size => .record rec ⟨reader.current, reader.offset + size⟩ := by
  obtain ⟨content, hcontent, rfl, -⟩ := hstanding.content
  unfold Reader.fetch
  split
  next hmissing =>
    rw [hcontent] at hmissing
    contradiction
  next found hfound =>
    cases hcontent.symm.trans hfound
    rfl

variable {rec : Record} {size : Nat}

theorem spares (hstanding : Standing dir segments reader bytes)
    (hfiles : Undisturbed dir segments) (hread : readFrame bytes = .frame rec size) :
    rec.SparesSegments := by
  obtain ⟨content, hcontent, -, hreaches⟩ := hstanding.content
  exact hfiles.spares _ hstanding.listed content hcontent bytes hreaches rec size hread

theorem past (hstanding : Standing dir segments reader bytes)
    (hread : readFrame bytes = .frame rec size) {after : Directory}
    (hsame : ∀ name ∈ segments, after.lookup name = dir.lookup name) :
    Standing after segments ⟨reader.current, reader.offset + size⟩ (bytes.drop size) := by
  obtain ⟨content, hcontent, rfl, hreaches⟩ := hstanding.content
  refine ⟨hstanding.listed, content, ?_, List.drop_drop.symm, hreaches.concat hread⟩
  rw [hsame _ hstanding.listed]
  exact hcontent

variable {fuel : Nat} {ahead : Outlook}

end Standing

end Loop

section Complete

variable {w : Wal} {lsn : UInt64} {name : GoString} {rest : List GoString}

end Complete

end SimonMQ.Durable
