import SimonMQ.Durable.Model

namespace SimonMQ.Durable

open SimonMQ.Go

/-! A message in memory, and one pass of a queue worker over it. -/

structure QueueMsg where
  msgId : GoString
  payload : GoString
  ackedSubs : Finset GoString
  retryMap : GoMap Nat
  subPolicySnapshot : GoMap SubPolicy

def newQueueMsg (msgId payload : GoString) (subPolicySnapshot : GoMap SubPolicy)
    (ackedSubs : Finset GoString) : QueueMsg where
  msgId := msgId
  payload := payload
  ackedSubs := ackedSubs
  retryMap := ∅
  subPolicySnapshot := subPolicySnapshot

structure DeliveryResult where
  subName : GoString
  success : Bool
  deriving DecidableEq, Repr

namespace QueueMsg

def policyByName (msg : QueueMsg) : GoMap SubPolicy :=
  msg.subPolicySnapshot.retain fun name _ => name ∉ msg.ackedSubs

/-- Every goroutine of a pass names its policy's subscriber. -/
def answers (msg : QueueMsg) (order : GoMap.Order SubPolicy) (outcome : GoString → Bool) :
    List DeliveryResult :=
  (order.walk msg.policyByName).map fun entry =>
    ⟨entry.2.subName, outcome entry.2.subName⟩

/-- The message with a result counted, and whether its subscriber is settled by it. -/
def judge (policyByName : GoMap SubPolicy) (msg : QueueMsg) (result : DeliveryResult) :
    QueueMsg × Bool :=
  if result.success then (msg, true)
  else
    let failures := (msg.retryMap.lookup result.subName).getD 0 + 1
    let policy := (policyByName.lookup result.subName).getD .zero
    ({ msg with retryMap := msg.retryMap.insert result.subName failures },
      decide (policy.numberOfRetries.toInt ≤ failures))

def markAcked (msg : QueueMsg) (subName : GoString) : QueueMsg :=
  { msg with ackedSubs := insert subName msg.ackedSubs }

/-- What `ProcessMsg` has done so far, with the acks that were logged. -/
structure Pass where
  msg : QueueMsg
  acks : List GoString := []
  anySubsRemaining : Bool := false

/-- One turn of the loop over the results; `onAck` says which acks can be logged. -/
def Pass.take (policyByName : GoMap SubPolicy) (onAck : GoString → Bool) (pass : Pass)
    (result : DeliveryResult) : Pass :=
  let (msg, acked) := pass.msg.judge policyByName result
  if acked then
    if onAck result.subName then
      { pass with
        msg := msg.markAcked result.subName
        acks := pass.acks ++ [result.subName] }
    else { pass with msg := msg, anySubsRemaining := true }
  else { pass with msg := msg, anySubsRemaining := true }

/-- `ProcessMsg` on the results in the order in which they arrive; the message is
added again exactly if `anySubsRemaining`. -/
def processMsg (msg : QueueMsg) (onAck : GoString → Bool) (results : List DeliveryResult) :
    Pass :=
  if msg.policyByName.len = 0 then { msg := msg }
  else results.foldl (Pass.take msg.policyByName onAck) { msg := msg }

end QueueMsg

end SimonMQ.Durable
