import SimonMQ.Durable.Model
import SimonMQ.Durable.Record
import SimonMQ.Go.Map

namespace SimonMQ.Durable

open SimonMQ.Go

/-! Startup: the catalog of queues and policies, the delivery state, and the replay
of a log into both. -/

inductive ReplayError
  | malformedPayload
  | queueNotFound (queueName : GoString)
  /-- an ack for a queue without messages -/
  | noMessages (queueName : GoString)
  | messageNotFound (msgId : GoString)
  | invalidOpType (opType : OpType)
  deriving DecidableEq

/-- Each known queue with its policies by subscriber name. -/
abbrev Catalog := GoMap (GoMap SubPolicy)

namespace Catalog

/-- `createQueue`: a fresh entry, also where one exists. -/
def createQueue (cat : Catalog) (queueName : GoString) : Catalog := cat.insert queueName ∅

def removeQueue (cat : Catalog) (queueName : GoString) : Catalog := cat.erase queueName

/-- The checks that `updateSubPolicy` and `removeSubPolicy` share: the payload must
decode and the queue must exist. -/
def editPolicies (cat : Catalog) (queueName : GoString) (payload : Bytes)
    (edit : SubPolicy → GoMap SubPolicy → GoMap SubPolicy) : Except ReplayError Catalog :=
  match decodeSubPolicy payload with
  | none => .error .malformedPayload
  | some policy =>
      match cat.lookup queueName with
      | none => .error (.queueNotFound queueName)
      | some policies => .ok (cat.insert queueName (edit policy policies))

def updateSubPolicy (cat : Catalog) (queueName : GoString) (payload : Bytes) :
    Except ReplayError Catalog :=
  cat.editPolicies queueName payload fun policy policies =>
    policies.insert policy.subName policy

def removeSubPolicy (cat : Catalog) (queueName : GoString) (payload : Bytes) :
    Except ReplayError Catalog :=
  cat.editPolicies queueName payload fun policy policies => policies.erase policy.subName

def processRecord (cat : Catalog) (rec : Record) : Except ReplayError Catalog :=
  match rec.opType with
  | .createQueue => .ok (cat.createQueue rec.queueName)
  | .deleteQueue => .ok (cat.removeQueue rec.queueName)
  | .updateSubPolicy => cat.updateSubPolicy rec.queueName rec.payload
  | .deleteSubPolicy => cat.removeSubPolicy rec.queueName rec.payload
  | .beginCheckpoint => .ok cat
  | .endCheckpoint => .ok cat
  | opType => .error (.invalidOpType opType)

end Catalog

/-- `DeliveryMessageInfo`. -/
structure Message where
  content : GoString
  subList : GoMap SubPolicy
  ackedSubs : Finset GoString

/-- `hasUnackedSubs` of `RestoreWAL`. -/
def Message.hasUnackedSubs (msg : Message) : Bool :=
  decide (¬ msg.subList.keys ⊆ msg.ackedSubs)

/-- `msgInfo.AckedSubs[subName] = struct{}{}`. -/
def Message.markAcked (msg : Message) (subName : GoString) : Message :=
  { msg with ackedSubs := insert subName msg.ackedSubs }

/-- Messages by queue name and id. -/
abbrev Delivery := GoMap (GoMap Message)

namespace Delivery

def messages (deli : Delivery) (queueName : GoString) : GoMap Message :=
  (deli.lookup queueName).getD ∅

def setMessage (deli : Delivery) (queueName msgId : GoString) (msg : Message) : Delivery :=
  deli.insert queueName ((deli.messages queueName).insert msgId msg)

def processEnqueue (deli : Delivery) (rec : Record) : Except ReplayError Delivery :=
  if rec.opType ≠ .enqueue then .error (.invalidOpType rec.opType)
  else
    match decodeEnqueue rec.payload with
    | none => .error .malformedPayload
    | some enq =>
        .ok (deli.setMessage rec.queueName enq.msgId ⟨enq.msgContent, enq.subList, ∅⟩)

def processAck (deli : Delivery) (rec : Record) : Except ReplayError Delivery :=
  if rec.opType ≠ .ack then .error (.invalidOpType rec.opType)
  else
    match decodeAck rec.payload with
    | none => .error .malformedPayload
    | some ack =>
        match deli.lookup rec.queueName with
        | none => .error (.noMessages rec.queueName)
        | some messages =>
            match messages.lookup ack.msgId with
            | none => .error (.messageNotFound ack.msgId)
            | some msg =>
                match msg.subList.lookup ack.subName with
                | none => .ok deli
                | some _ =>
                    .ok (deli.insert rec.queueName
                      (messages.insert ack.msgId (msg.markAcked ack.subName)))

def deleteQueueMessages (deli : Delivery) (queueName : GoString) : Delivery :=
  deli.erase queueName

end Delivery

structure Replayed where
  cat : Catalog := ∅
  deli : Delivery := ∅

namespace Replayed

/-- One turn of the loop in `ReplayLog`. -/
def replayRecord (state : Replayed) (rec : Record) : Except ReplayError Replayed :=
  match rec.opType with
  | .enqueue =>
      match state.deli.processEnqueue rec with
      | .error err => .error err
      | .ok deli => .ok { state with deli }
  | .ack =>
      match state.deli.processAck rec with
      | .error err => .error err
      | .ok deli => .ok { state with deli }
  | .deleteQueue =>
      match state.cat.processRecord rec with
      | .error err => .error err
      | .ok cat => .ok ⟨cat, state.deli.deleteQueueMessages rec.queueName⟩
  | _ =>
      match state.cat.processRecord rec with
      | .error err => .error err
      | .ok cat => .ok { state with cat }

/-- The loop of `ReplayLog`, which stops at the first error. -/
def replay (state : Replayed) : List Record → Except ReplayError Replayed
  | [] => .ok state
  | rec :: records =>
      match state.replayRecord rec with
      | .error err => .error err
      | .ok next => replay next records

theorem replay_append {state final : Replayed} {before after : List Record} :
    replay state (before ++ after) = .ok final ↔
      ∃ middle, replay state before = .ok middle ∧ replay middle after = .ok final := by
  induction before generalizing state with
  | nil => simp [replay]
  | cons rec before ih =>
      simp only [List.cons_append, replay]
      cases state.replayRecord rec with
      | error err => simp
      | ok next => exact ih

def message (state : Replayed) (queueName msgId : GoString) : Option Message :=
  (state.deli.messages queueName).lookup msgId

/-- What `RestoreWAL` brings back to life: the queues with their policies, and for
each of them the messages that still have a subscriber to reach. -/
structure SameService (left right : Replayed) : Prop where
  policies : left.cat = right.cat
  messages : ∀ queueName msgId, queueName ∈ left.cat →
    (left.message queueName msgId).filter Message.hasUnackedSubs =
      (right.message queueName msgId).filter Message.hasUnackedSubs

end Replayed

end SimonMQ.Durable
