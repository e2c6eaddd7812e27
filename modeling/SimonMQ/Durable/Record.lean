import SimonMQ.Go.Crc32

namespace SimonMQ.Durable

open SimonMQ.Go

/-! The log record and its frame: `LSN`, length, operation, queue name and
payload in little-endian fields, closed by a checksum of everything before. -/

/-- An operation code.  The source's type is a byte, so a frame may carry a code
that names no operation. -/
inductive OpType
  | enqueue
  | ack
  | createQueue
  | deleteQueue
  | updateSubPolicy
  | deleteSubPolicy
  | beginCheckpoint
  | endCheckpoint
  | other (code : UInt8) (hcode : code = 0 ∨ 8 < code)
  deriving DecidableEq

namespace OpType

def toCode : OpType → UInt8
  | .enqueue => 1
  | .ack => 2
  | .createQueue => 3
  | .deleteQueue => 4
  | .updateSubPolicy => 5
  | .deleteSubPolicy => 6
  | .beginCheckpoint => 7
  | .endCheckpoint => 8
  | .other code _ => code

private theorem code_cases (code : UInt8) (hnamed : ¬ (code = 0 ∨ 8 < code)) :
    code = 1 ∨ code = 2 ∨ code = 3 ∨ code = 4 ∨ code = 5 ∨ code = 6 ∨ code = 7 ∨
      code = 8 := by
  simp only [← UInt8.toNat_inj, UInt8.lt_iff_toNat_lt, UInt8.reduceToNat] at *
  omega

def ofCode (code : UInt8) : OpType :=
  if code = 1 then .enqueue
  else if code = 2 then .ack
  else if code = 3 then .createQueue
  else if code = 4 then .deleteQueue
  else if code = 5 then .updateSubPolicy
  else if code = 6 then .deleteSubPolicy
  else if code = 7 then .beginCheckpoint
  else if hnamed : code = 0 ∨ 8 < code then .other code hnamed
  else .endCheckpoint

@[simp] theorem ofCode_toCode (opType : OpType) : ofCode opType.toCode = opType := by
  cases opType with
  | other code hcode =>
      have hne : ∀ named : UInt8, 0 < named → named ≤ 8 → code ≠ named := by
        rintro named hpos hle rfl
        simp only [← UInt8.toNat_inj, UInt8.lt_iff_toNat_lt, UInt8.le_iff_toNat_le,
          UInt8.reduceToNat] at *
        omega
      change ofCode code = .other code hcode
      rw [ofCode, if_neg (hne 1 (by decide) (by decide)), if_neg (hne 2 (by decide) (by decide)),
        if_neg (hne 3 (by decide) (by decide)), if_neg (hne 4 (by decide) (by decide)),
        if_neg (hne 5 (by decide) (by decide)), if_neg (hne 6 (by decide) (by decide)),
        if_neg (hne 7 (by decide) (by decide)), dif_pos hcode]
  | _ => rfl

@[simp] theorem toCode_ofCode (code : UInt8) : (ofCode code).toCode = code := by
  by_cases hnamed : code = 0 ∨ 8 < code
  · have hother : ofCode code = .other code hnamed :=
      ofCode_toCode (.other code hnamed)
    rw [hother]
    rfl
  · rcases code_cases code hnamed with h | h | h | h | h | h | h | h <;>
      (subst h; rfl)

end OpType

structure Record where
  lsn : UInt64
  opType : OpType
  queueName : GoString
  payload : Bytes
  deriving DecidableEq

inductive DecodeError
  | tooShort
  | invalidCrc
  deriving DecidableEq, Repr

/-- What a call of `Decode` comes to.  A slice with bounds out of range or out of
order panics. -/
inductive Decoded
  | ok (rec : Record)
  | error (err : DecodeError)
  | panics
  deriving DecidableEq

namespace Record

/-- The value of the length field: what follows the first twelve bytes. -/
def lengthField (rec : Record) : Nat :=
  1 + 4 + rec.queueName.length + rec.payload.length + 4

def body (rec : Record) : Bytes :=
  putUint64 rec.lsn ++ (putUint32 (UInt32.ofNat rec.lengthField) ++
    (rec.opType.toCode :: (putUint32 (UInt32.ofNat rec.queueName.length) ++
      (rec.queueName ++ rec.payload))))

def encodeWith (crc : Bytes → UInt32) (rec : Record) : Bytes :=
  rec.body ++ putUint32 (crc rec.body)

def encode (rec : Record) : Bytes := encodeWith checksumIEEE rec

def decodeWith (crc : Bytes → UInt32) (data : Bytes) : Decoded :=
  if data.length < 12 then .error .tooShort
  else
    let remainingLength := (uint32 (data.drop 8)).toNat
    if data.length < remainingLength + 12 then .error .tooShort
    else
      let queueNameLen := (uint32 (data.drop 13)).toNat
      -- Fewer than seventeen bytes, or a queue name running past the payload,
      -- make the payload's length negative at the latest.
      if data.length < 17 ∨ remainingLength + 8 < 17 + queueNameLen then .panics
      else
        let crcField := uint32 (data.drop (remainingLength + 8))
        if crcField ≠ crc (data.take (remainingLength + 8)) then .error .invalidCrc
        else .ok {
          lsn := uint64 data
          opType := .ofCode ((data.drop 12).headD 0)
          queueName := (data.drop 17).take queueNameLen
          payload := (data.drop (17 + queueNameLen)).take
            (remainingLength + 8 - (17 + queueNameLen)) }

def decode (data : Bytes) : Decoded := decodeWith checksumIEEE data

@[simp] theorem length_body (rec : Record) :
    rec.body.length = 8 + rec.lengthField := by
  simp only [body, lengthField, List.length_append, List.length_cons,
    length_putUint64, length_putUint32]
  omega

@[simp] theorem length_encodeWith (crc : Bytes → UInt32) (rec : Record) :
    (encodeWith crc rec).length = 12 + rec.lengthField := by
  simp only [encodeWith, List.length_append, length_body, length_putUint32]
  omega

@[simp] theorem length_encode (rec : Record) :
    rec.encode.length = 12 + rec.lengthField :=
  length_encodeWith checksumIEEE rec

/-! Each field of a frame sits where the decoder looks for it. -/

section Fields

variable (crc : Bytes → UInt32) (rec : Record) (rest : Bytes)

theorem uint64_encodeWith : uint64 (encodeWith crc rec ++ rest) = rec.lsn := by
  simp only [encodeWith, body, List.append_assoc, uint64_putUint64]

theorem drop_eight_encodeWith :
    (encodeWith crc rec ++ rest).drop 8 =
      putUint32 (UInt32.ofNat rec.lengthField) ++
        (rec.opType.toCode :: (putUint32 (UInt32.ofNat rec.queueName.length) ++
          (rec.queueName ++ (rec.payload ++ (putUint32 (crc rec.body) ++ rest))))) := by
  simp only [encodeWith, body, List.append_assoc, List.cons_append]
  exact List.drop_left' (length_putUint64 rec.lsn)

theorem uint32_drop_eight_encodeWith :
    uint32 ((encodeWith crc rec ++ rest).drop 8) =
      UInt32.ofNat rec.lengthField := by
  rw [drop_eight_encodeWith, uint32_putUint32]

theorem drop_twelve_encodeWith :
    (encodeWith crc rec ++ rest).drop 12 =
      rec.opType.toCode :: (putUint32 (UInt32.ofNat rec.queueName.length) ++
        (rec.queueName ++ (rec.payload ++ (putUint32 (crc rec.body) ++ rest)))) := by
  have hdrop : (encodeWith crc rec ++ rest).drop 12 =
      ((encodeWith crc rec ++ rest).drop 8).drop 4 := by rw [List.drop_drop]
  rw [hdrop, drop_eight_encodeWith]
  exact List.drop_left' (length_putUint32 _)

theorem drop_thirteen_encodeWith :
    (encodeWith crc rec ++ rest).drop 13 =
      putUint32 (UInt32.ofNat rec.queueName.length) ++
        (rec.queueName ++ (rec.payload ++ (putUint32 (crc rec.body) ++ rest))) := by
  have hdrop : (encodeWith crc rec ++ rest).drop 13 =
      ((encodeWith crc rec ++ rest).drop 12).drop 1 := by rw [List.drop_drop]
  rw [hdrop, drop_twelve_encodeWith]
  rfl

theorem drop_seventeen_encodeWith :
    (encodeWith crc rec ++ rest).drop 17 =
      rec.queueName ++ (rec.payload ++ (putUint32 (crc rec.body) ++ rest)) := by
  have hdrop : (encodeWith crc rec ++ rest).drop 17 =
      ((encodeWith crc rec ++ rest).drop 13).drop 4 := by rw [List.drop_drop]
  rw [hdrop, drop_thirteen_encodeWith]
  exact List.drop_left' (length_putUint32 _)

theorem drop_payload_encodeWith :
    (encodeWith crc rec ++ rest).drop (17 + rec.queueName.length) =
      rec.payload ++ (putUint32 (crc rec.body) ++ rest) := by
  rw [← List.drop_drop, drop_seventeen_encodeWith]
  exact List.drop_left' rfl

theorem take_body_encodeWith :
    (encodeWith crc rec ++ rest).take (rec.lengthField + 8) = rec.body := by
  rw [encodeWith, List.append_assoc]
  exact List.take_left' (by rw [length_body]; omega)

theorem drop_body_encodeWith :
    (encodeWith crc rec ++ rest).drop (rec.lengthField + 8) =
      putUint32 (crc rec.body) ++ rest := by
  rw [encodeWith, List.append_assoc]
  exact List.drop_left' (by rw [length_body]; omega)

end Fields

theorem decodeWith_encodeWith (crc : Bytes → UInt32) (rec : Record) (rest : Bytes)
    (hlength : rec.lengthField < 2 ^ 32) :
    decodeWith crc (encodeWith crc rec ++ rest) = .ok rec := by
  have hfield : (UInt32.ofNat rec.lengthField).toNat = rec.lengthField :=
    UInt32.toNat_ofNat_of_lt' hlength
  have hname : (UInt32.ofNat rec.queueName.length).toNat = rec.queueName.length :=
    UInt32.toNat_ofNat_of_lt' (by
      rw [lengthField] at hlength
      simp only [UInt32.size]
      omega)
  have htotal : (encodeWith crc rec ++ rest).length =
      12 + rec.lengthField + rest.length := by
    rw [List.length_append, length_encodeWith]
  have hpayload : rec.lengthField + 8 - (17 + rec.queueName.length) =
      rec.payload.length := by
    rw [lengthField]
    omega
  have hbounds : ¬ ((encodeWith crc rec ++ rest).length < 17 ∨
      rec.lengthField + 8 < 17 + rec.queueName.length) := by
    rw [htotal, lengthField]
    omega
  rw [decodeWith, if_neg (by omega)]
  simp only [uint32_drop_eight_encodeWith, hfield]
  rw [if_neg (by omega)]
  simp only [drop_thirteen_encodeWith, uint32_putUint32, hname]
  rw [if_neg hbounds, drop_body_encodeWith, take_body_encodeWith, uint32_putUint32,
    if_neg (by simp), uint64_encodeWith, drop_twelve_encodeWith,
    drop_seventeen_encodeWith, drop_payload_encodeWith, hpayload]
  simp

theorem decode_encode (rec : Record) (rest : Bytes)
    (hlength : rec.lengthField < 2 ^ 32) : decode (rec.encode ++ rest) = .ok rec :=
  decodeWith_encodeWith checksumIEEE rec rest hlength

theorem lengthField_of_decodeWith {crc : Bytes → UInt32} {data : Bytes} {rec : Record}
    (hdecode : decodeWith crc data = .ok rec) :
    rec.lengthField = (uint32 (data.drop 8)).toNat ∧
      rec.lengthField + 12 ≤ data.length := by
  unfold decodeWith at hdecode
  dsimp only at hdecode
  split_ifs at hdecode with hheader hframe hbounds hcrc
  cases hdecode
  simp only [lengthField, List.length_take, List.length_drop]
  omega

theorem take_pieces (data : Bytes) (nameLen payloadLen : Nat) :
    data.take (17 + nameLen + payloadLen) =
      data.take 8 ++ ((data.drop 8).take 4 ++ ((data.drop 12).take 1 ++
        ((data.drop 13).take 4 ++ ((data.drop 17).take nameLen ++
          (data.drop (17 + nameLen)).take payloadLen)))) := by
  have hsum : 17 + nameLen + payloadLen =
      8 + (4 + (1 + (4 + (nameLen + payloadLen)))) := by omega
  simp only [hsum, List.take_add, List.drop_drop]

theorem encodeWith_of_decodeWith {crc : Bytes → UInt32} {data : Bytes} {rec : Record}
    (hdecode : decodeWith crc data = .ok rec) :
    encodeWith crc rec = data.take (12 + (uint32 (data.drop 8)).toNat) := by
  have hfield := (lengthField_of_decodeWith hdecode).1
  unfold decodeWith at hdecode
  dsimp only at hdecode
  split_ifs at hdecode with hheader hframe hbounds hcrc
  rw [not_or, Nat.not_lt, Nat.not_lt] at hbounds
  rw [Nat.not_lt] at hframe
  have hname : ((data.drop 17).take (uint32 (data.drop 13)).toNat).length =
      (uint32 (data.drop 13)).toNat := by
    rw [List.length_take, List.length_drop]
    omega
  have hcode : [(data.drop 12).headD 0] = (data.drop 12).take 1 := by
    rw [List.drop_eq_getElem_cons (by omega)]
    rfl
  obtain ⟨payloadLen, hend⟩ := Nat.le.dest hbounds.2
  have hbody : rec.body = data.take ((uint32 (data.drop 8)).toNat + 8) := by
    rw [← hend, take_pieces, body, hfield, UInt32.ofNat_toNat]
    cases hdecode
    rw [hname, UInt32.ofNat_toNat, OpType.toCode_ofCode, ← hend, Nat.add_sub_cancel_left,
      putUint64_uint64 (by omega), putUint32_uint32 (by rw [List.length_drop]; omega),
      putUint32_uint32 (by rw [List.length_drop]; omega), ← hcode]
    rfl
  rw [encodeWith, hbody, ← not_not.mp hcrc,
    putUint32_uint32 (by rw [List.length_drop]; omega), ← List.take_add]
  congr 1
  omega

/-- Records and frames correspond, whatever function of the bytes the checksum is. -/
theorem frames_correspond_to_records (crc : Bytes → UInt32) :
    (∀ (rec : Record) (rest : Bytes),
      rec.queueName.length + rec.payload.length < 2 ^ 32 - 9 →
        decodeWith crc (encodeWith crc rec ++ rest) = .ok rec) ∧
    ∀ (data : Bytes) (rec : Record), decodeWith crc data = .ok rec →
      encodeWith crc rec = data.take (12 + (uint32 (data.drop 8)).toNat) := by
  constructor
  · intro rec rest hlength
    apply decodeWith_encodeWith
    rw [lengthField]
    omega
  · intro data rec hdecode
    exact encodeWith_of_decodeWith hdecode

/-- A frame without a payload, with the first byte of another one behind it. -/
def shortFrame : Bytes := encode ⟨1, .createQueue, lit "q", []⟩ ++ [2]

theorem short_frame_corresponds :
    decodeWith checksumIEEE shortFrame = .ok ⟨1, .createQueue, lit "q", []⟩ ∧
      encode ⟨1, .createQueue, lit "q", []⟩ =
        shortFrame.take (12 + (uint32 (shortFrame.drop 8)).toNat) := by
  have hdecode := (frames_correspond_to_records checksumIEEE).1
    ⟨1, .createQueue, lit "q", []⟩ [2] (by decide)
  exact ⟨hdecode, (frames_correspond_to_records checksumIEEE).2 shortFrame _ hdecode⟩

end Record

end SimonMQ.Durable
