import SimonMQ.Go.Directory
import SimonMQ.Go.Strconv
import SimonMQ.Durable.Record

namespace SimonMQ.Durable

open SimonMQ.Go

/-! Segment files: their names, the frames inside them, and recovery of the last
one. -/

def walSuffix : GoString := lit ".wal"

/-- `segmentFileName`: `%020d.wal`. -/
def segmentFileName (firstLSN : UInt64) : GoString :=
  zeroPad 20 (formatUint firstLSN.toNat) ++ walSuffix

/-- `firstLSNFromSegmentName`; no value where the source panics. -/
def firstLSNFromSegmentName (name : GoString) : Option UInt64 :=
  match parseUint (trimSuffix name walSuffix) with
  | .ok lsn => some (UInt64.ofNat lsn)
  | .error _ => none

/-- The largest length field either reader accepts. -/
def maxLogLength : Nat := 16 * 1024 * 1024

/-- What one attempt to read a frame meets. -/
inductive FrameRead
  /-- no byte is left -/
  | eof
  /-- the file ends inside the header or inside the rest -/
  | torn
  | tooLong (length : Nat)
  /-- `Decode` returns an error -/
  | invalid
  /-- `Decode` panics -/
  | panics
  | frame (rec : Record) (size : Nat)
  deriving DecidableEq

/-- The reads both `scanSegment` and `readNext` make: a twelve-byte header, then
as many bytes as its length field says, then `Decode`. -/
def readFrame (bytes : Bytes) : FrameRead :=
  if bytes.isEmpty then .eof
  else if bytes.length < 12 then .torn
  else
    let remainingLength := (uint32 (bytes.drop 8)).toNat
    if maxLogLength < remainingLength then .tooLong remainingLength
    else if bytes.length < 12 + remainingLength then .torn
    else
      match Record.decode (bytes.take (12 + remainingLength)) with
      | .ok rec => .frame rec (12 + remainingLength)
      | .error _ => .invalid
      | .panics => .panics

theorem readFrame_size {bytes : Bytes} {rec : Record} {size : Nat}
    (hread : readFrame bytes = .frame rec size) :
    size = 12 + rec.lengthField ∧ size ≤ bytes.length ∧ rec.lengthField ≤ maxLogLength := by
  unfold readFrame at hread
  dsimp only at hread
  split_ifs at hread with hempty hheader hlimit hshort
  split at hread
  · rename_i decoded hdecode
    cases hread
    obtain ⟨hfield, hlength⟩ := Record.lengthField_of_decodeWith hdecode
    rw [uint32_drop_take (by omega)] at hfield
    omega
  · contradiction
  · contradiction

/-- `scanSegment`: the records up to the first thing that is no valid frame, and
the offset where they end.  No value where `Decode` panics. -/
def scanSegment (bytes : Bytes) : Option (List Record × Nat) :=
  match _hread : readFrame bytes with
  | .frame rec size =>
      (scanSegment (bytes.drop size)).map fun scanned =>
        (rec :: scanned.1, size + scanned.2)
  | .panics => none
  | _ => some ([], 0)
termination_by bytes.length
decreasing_by
  have := readFrame_size _hread
  rw [List.length_drop]
  omega

/-! A frame within the limit is read back; a frame over it never is. -/

/-- The bound of both readers, as a condition on the record. -/
def Record.Fits (rec : Record) : Prop := rec.lengthField ≤ maxLogLength

instance (rec : Record) : Decidable rec.Fits :=
  inferInstanceAs (Decidable (rec.lengthField ≤ maxLogLength))

theorem Record.Fits.lt {rec : Record} (hfits : rec.Fits) : rec.lengthField < 2 ^ 32 := by
  have hfits : rec.lengthField ≤ 16 * 1024 * 1024 := hfits
  omega

theorem toNat_lengthField {rec : Record} (hlength : rec.lengthField < 2 ^ 32)
    (rest : Bytes) :
    (uint32 ((rec.encode ++ rest).drop 8)).toNat = rec.lengthField := by
  rw [Record.encode, Record.uint32_drop_eight_encodeWith]
  exact UInt32.toNat_ofNat_of_lt' hlength

theorem toNat_lengthField_take {rec : Record} (hlength : rec.lengthField < 2 ^ 32)
    {cut : Nat} (hheader : 12 ≤ cut) :
    (uint32 ((rec.encode.take cut).drop 8)).toNat = rec.lengthField := by
  rw [uint32_drop_take (by omega)]
  simpa using toNat_lengthField hlength []

theorem readFrame_encode {rec : Record} (hfits : rec.Fits) (rest : Bytes) :
    readFrame (rec.encode ++ rest) = .frame rec rec.encode.length := by
  have hlength : (rec.encode ++ rest).length = 12 + rec.lengthField + rest.length := by
    rw [List.length_append, Record.length_encode]
  have hnonempty : (rec.encode ++ rest).isEmpty = false := by
    rw [List.isEmpty_eq_false_iff_exists_mem]
    exact List.exists_mem_of_length_pos (by omega)
  have htake : (rec.encode ++ rest).take (12 + rec.lengthField) = rec.encode :=
    List.take_left' (Record.length_encode rec)
  have hdecode : Record.decode rec.encode = .ok rec := by
    simpa using Record.decode_encode rec [] hfits.lt
  rw [readFrame, if_neg (by simp [hnonempty]), if_neg (by omega)]
  simp only [toNat_lengthField hfits.lt]
  rw [if_neg (Nat.not_lt.mpr hfits), if_neg (by omega), htake]
  simp only [hdecode, Record.length_encode]

theorem readFrame_torn {rec : Record} (hfits : rec.Fits) {cut : Nat} (hpos : 0 < cut)
    (hcut : cut < rec.encode.length) : readFrame (rec.encode.take cut) = .torn := by
  have hlength : (rec.encode.take cut).length = cut := by
    rw [List.length_take]
    omega
  have hnonempty : (rec.encode.take cut).isEmpty = false := by
    rw [List.isEmpty_eq_false_iff_exists_mem]
    exact List.exists_mem_of_length_pos (by omega)
  rw [readFrame, if_neg (by simp [hnonempty])]
  split_ifs with hheader
  · rfl
  · rw [Record.length_encode] at hcut
    simp only [toNat_lengthField_take hfits.lt (show 12 ≤ cut by omega)]
    rw [if_neg (Nat.not_lt.mpr hfits), if_pos (by omega)]

theorem readFrame_nil : readFrame [] = .eof := rfl

def frames (records : List Record) : Bytes := records.flatMap Record.encode

@[simp] theorem frames_nil : frames [] = [] := rfl

@[simp] theorem frames_cons (rec : Record) (records : List Record) :
    frames (rec :: records) = rec.encode ++ frames records := rfl

@[simp] theorem frames_append (left right : List Record) :
    frames (left ++ right) = frames left ++ frames right :=
  List.flatMap_append

/-- The bytes of an append that has not finished: nothing, or a frame cut short. -/
def Torn (tail : Bytes) : Prop :=
  ∃ rec : Record, rec.Fits ∧ ∃ cut, cut < rec.encode.length ∧ tail = rec.encode.take cut

theorem torn_nil : Torn [] :=
  ⟨⟨0, .ack, [], []⟩, by decide, 0, by simp, by simp⟩

theorem Torn.readFrame {tail : Bytes} (htorn : Torn tail) :
    readFrame tail = .eof ∨ readFrame tail = .torn := by
  obtain ⟨rec, hfits, cut, hcut, rfl⟩ := htorn
  rcases Nat.eq_zero_or_pos cut with rfl | hpos
  · exact .inl readFrame_nil
  · exact .inr (readFrame_torn hfits hpos hcut)

theorem scanSegment_torn {tail : Bytes} (htorn : Torn tail) :
    scanSegment tail = some ([], 0) := by
  rw [scanSegment]
  rcases htorn.readFrame with hread | hread <;> split <;> simp_all

theorem scanSegment_cons {rec : Record} (hfits : rec.Fits) (rest : Bytes) :
    scanSegment (rec.encode ++ rest) =
      (scanSegment rest).map fun scanned =>
        (rec :: scanned.1, rec.encode.length + scanned.2) := by
  have hread := readFrame_encode hfits rest
  rw [scanSegment]
  split
  · rename_i hframe
    rw [hread] at hframe
    cases hframe
    rw [List.drop_left' rfl]
  · rename_i hpanics
    rw [hread] at hpanics
    contradiction
  · rename_i hother _
    exact absurd hread (hother rec rec.encode.length)

theorem scanSegment_frames {records : List Record} (hfits : ∀ rec ∈ records, rec.Fits)
    {tail : Bytes} (htorn : Torn tail) :
    scanSegment (frames records ++ tail) = some (records, (frames records).length) := by
  induction records with
  | nil => simpa using scanSegment_torn htorn
  | cons rec records ih =>
      rw [frames_cons, List.append_assoc,
        scanSegment_cons (hfits rec List.mem_cons_self),
        ih fun other hmem => hfits other (List.mem_cons_of_mem _ hmem)]
      simp

/-! Segment names carry their first LSN and sort by it. -/

private theorem toNat_lt_pow_twenty (lsn : UInt64) : lsn.toNat < 10 ^ 20 :=
  Nat.lt_trans lsn.toNat_lt (by decide)

theorem hasSuffix_segmentFileName (lsn : UInt64) :
    hasSuffix (segmentFileName lsn) walSuffix :=
  hasSuffix_append _ _

theorem firstLSN_segmentFileName (lsn : UInt64) :
    firstLSNFromSegmentName (segmentFileName lsn) = some lsn := by
  rw [firstLSNFromSegmentName, segmentFileName, trimSuffix_append,
    parseUint_zeroPad 20 lsn.toNat lsn.toNat_lt]
  simp

theorem segmentFileName_inj {left right : UInt64}
    (heq : segmentFileName left = segmentFileName right) : left = right := by
  have hfirst := firstLSN_segmentFileName left
  rw [heq, firstLSN_segmentFileName, Option.some.injEq] at hfirst
  exact hfirst.symm

theorem segmentFileName_lt_iff (left right : UInt64) :
    segmentFileName left < segmentFileName right ↔ left < right := by
  rw [segmentFileName, segmentFileName, digits_lt_iff
      ((length_zeroPad (by decide) (toNat_lt_pow_twenty left)).trans
        (length_zeroPad (by decide) (toNat_lt_pow_twenty right)).symm)
      (all_isDigit_zeroPad 20 left.toNat) (all_isDigit_zeroPad 20 right.toNat),
    decimalValue_zeroPad, decimalValue_zeroPad, UInt64.lt_iff_toNat_lt]

/-! The segment manager's list of names. -/

/-- `SegmentAfter`: what follows the first entry of that name that has a
successor. -/
def segmentAfter (name : GoString) : List GoString → Option GoString
  | current :: next :: rest =>
      if current = name then some next else segmentAfter name (next :: rest)
  | _ => none

/-- The names `DeleteSegmentsBefore` collects; no value where it panics on a
name. -/
def segmentsBefore (lsn : UInt64) : List GoString → Option (List GoString)
  | current :: next :: rest =>
      match firstLSNFromSegmentName next with
      | none => none
      | some first =>
          if lsn < first then some []
          else (segmentsBefore lsn (next :: rest)).map (current :: ·)
  | _ => some []

end SimonMQ.Durable
