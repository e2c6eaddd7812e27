import SimonMQ.Model.SubPolicy

namespace SimonMQ.Durable

open SimonMQ.Go
open SimonMQ.Go.Json
open SimonMQ.Go.Utf8

/-! The JSON payloads of log records. -/

structure Enqueue where
  msgId : GoString
  msgContent : GoString
  subList : GoMap SubPolicy

structure Ack where
  msgId : GoString
  subName : GoString
  deriving DecidableEq

structure EndCheckpoint where
  fileName : GoString
  fileChecksum : GoString
  deriving DecidableEq

namespace Enqueue

def zero : Enqueue := ⟨[], [], ∅⟩

def fields : List (StructField Enqueue) :=
  [ .string (lit "MsgId") msgId fun enq text => { enq with msgId := text },
    .string (lit "MsgContent") msgContent fun enq text => { enq with msgContent := text },
    .map (lit "SubList") SubPolicy.fields .zero subList
      fun enq subList => { enq with subList } ]

/-- What a message becomes on its way through the log. -/
def coerce (enq : Enqueue) : Enqueue where
  msgId := toValid enq.msgId
  msgContent := toValid enq.msgContent
  subList := coerceMap SubPolicy.coerce enq.subList

theorem intoStruct_coerce (enq : Enqueue) :
    intoStruct fields (structValue fields enq).coerce zero = some enq.coerce := by
  have hnames : WellNamed fields := by decide +kernel
  rw [intoStruct_coerce_carry hnames, fields]
  refine carry_cons (StructField.decode_string _ _ _ enq _) ?_
  refine carry_cons (StructField.decode_string _ _ _ enq _) ?_
  exact carry_cons (StructField.decode_map _ SubPolicy.intoStruct_coerce _ enq rfl) rfl

end Enqueue

namespace Ack

def zero : Ack := ⟨[], []⟩

def fields : List (StructField Ack) :=
  [ .string (lit "MsgId") msgId fun ack text => { ack with msgId := text },
    .string (lit "SubName") subName fun ack text => { ack with subName := text } ]

def coerce (ack : Ack) : Ack := ⟨toValid ack.msgId, toValid ack.subName⟩

theorem intoStruct_coerce (ack : Ack) :
    intoStruct fields (structValue fields ack).coerce zero = some ack.coerce := by
  have hnames : WellNamed fields := by decide +kernel
  rw [intoStruct_coerce_carry hnames, fields]
  refine carry_cons (StructField.decode_string _ _ _ ack _) ?_
  exact carry_cons (StructField.decode_string _ _ _ ack _) rfl

end Ack

namespace EndCheckpoint

def zero : EndCheckpoint := ⟨[], []⟩

def fields : List (StructField EndCheckpoint) :=
  [ .string (lit "FileName") fileName fun endCkpt text => { endCkpt with fileName := text },
    .string (lit "FileChecksum") fileChecksum
      fun endCkpt text => { endCkpt with fileChecksum := text } ]

def coerce (endCkpt : EndCheckpoint) : EndCheckpoint :=
  ⟨toValid endCkpt.fileName, toValid endCkpt.fileChecksum⟩

theorem intoStruct_coerce (endCkpt : EndCheckpoint) :
    intoStruct fields (structValue fields endCkpt).coerce zero = some endCkpt.coerce := by
  have hnames : WellNamed fields := by decide +kernel
  rw [intoStruct_coerce_carry hnames, fields]
  refine carry_cons (StructField.decode_string _ _ _ endCkpt _) ?_
  exact carry_cons (StructField.decode_string _ _ _ endCkpt _) rfl

end EndCheckpoint

def encodeEnqueue (enq : Enqueue) : Bytes := marshal Enqueue.fields enq

def decodeEnqueue (bytes : Bytes) : Option Enqueue :=
  unmarshal Enqueue.fields .zero bytes

def encodeAck (ack : Ack) : Bytes := marshal Ack.fields ack

def decodeAck (bytes : Bytes) : Option Ack := unmarshal Ack.fields .zero bytes

def encodeEndCheckpoint (endCkpt : EndCheckpoint) : Bytes :=
  marshal EndCheckpoint.fields endCkpt

def decodeEndCheckpoint (bytes : Bytes) : Option EndCheckpoint :=
  unmarshal EndCheckpoint.fields .zero bytes

theorem decodeEnqueue_encodeEnqueue (enq : Enqueue) :
    decodeEnqueue (encodeEnqueue enq) = some enq.coerce := by
  rw [decodeEnqueue, encodeEnqueue, unmarshal_marshal (by decide)]
  exact enq.intoStruct_coerce

theorem decodeAck_encodeAck (ack : Ack) :
    decodeAck (encodeAck ack) = some ack.coerce := by
  rw [decodeAck, encodeAck, unmarshal_marshal (by decide)]
  exact ack.intoStruct_coerce

theorem decodeEndCheckpoint_encodeEndCheckpoint (endCkpt : EndCheckpoint) :
    decodeEndCheckpoint (encodeEndCheckpoint endCkpt) = some endCkpt.coerce := by
  rw [decodeEndCheckpoint, encodeEndCheckpoint,
    unmarshal_marshal (by decide)]
  exact endCkpt.intoStruct_coerce

end SimonMQ.Durable
