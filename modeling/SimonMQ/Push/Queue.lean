import SimonMQ.Durable.Pass
import SimonMQ.Go.Slice

namespace SimonMQ.Push

open SimonMQ.Go
open SimonMQ.Durable (DeliveryResult)

/-! The messages and queues of `push-mq`.  Nothing is stored: subscribers belong to the
queue, and every pass of the worker asks the queue again who they are.  `SubPolicy` and
`deliveryResult` are declared as in the other brokers. -/

structure QueueMsg where
  msgId : GoString
  payload : GoString
  /-- acked, or out of retries -/
  ackedSubs : Finset GoString
  retryMap : GoMap Nat
  deriving DecidableEq

def newQueueMsg (queueName payload uuid : GoString) : QueueMsg where
  msgId := queueName ++ lit "/" ++ uuid
  payload := payload
  ackedSubs := ∅
  retryMap := ∅

def isValidSubMetadata (metadata : SubPolicy) : Bool :=
  if metadata.subName = [] then false
  else if metadata.subURL = [] then false
  else if metadata.numberOfRetries > 100 then false
  else true

def initializeDefaultSubMetadataFields (metadata : SubPolicy) : SubPolicy :=
  if metadata.numberOfRetries < 0 then { metadata with numberOfRetries := 3 } else metadata

/-- `SendMsg`, given the status of the answer if there is one. -/
def sendMsg : Option Nat → Bool
  | none => false
  | some status => !(decide (status < 200) || decide (300 ≤ status))

def nilPointerDereference : Panic :=
  .message (lit "invalid memory address or nil pointer dereference")

namespace QueueMsg

def policyByName (msg : QueueMsg) (subPolicies : GoMap SubPolicy) : GoMap SubPolicy :=
  subPolicies.retain fun name _ => name ∉ msg.ackedSubs

def markAcked (msg : QueueMsg) (subName : GoString) : QueueMsg :=
  { msg with ackedSubs := insert subName msg.ackedSubs }

/-- What `ProcessMsg` has done so far. -/
structure Pass where
  msg : QueueMsg
  anySubsRemaining : Bool := false

/-- One turn of the loop over the results. -/
def Pass.take (policyByName : GoMap SubPolicy) (pass : Pass) (result : DeliveryResult) :
    Except Panic Pass :=
  if result.success then .ok { pass with msg := pass.msg.markAcked result.subName }
  else
    let failures := (pass.msg.retryMap.lookup result.subName).getD 0 + 1
    let msg := { pass.msg with retryMap := pass.msg.retryMap.insert result.subName failures }
    match policyByName.lookup result.subName with
    | none => .error nilPointerDereference
    | some policy =>
        if policy.numberOfRetries.toInt ≤ failures then
          .ok { pass with msg := msg.markAcked result.subName }
        else .ok { msg, anySubsRemaining := true }

/-- The results of the goroutines of a pass, in the order in which they arrive. -/
def answers (policyByName : GoMap SubPolicy) (order : GoMap.Order SubPolicy)
    (reply : GoString → Option Nat) : List DeliveryResult :=
  (order.walk policyByName).map fun entry =>
    ⟨entry.2.subName, sendMsg (reply entry.2.subName)⟩

/-- `ProcessMsg` from the sends to the end of the loop. -/
def deliver (msg : QueueMsg) (policyByName : GoMap SubPolicy)
    (order : GoMap.Order SubPolicy) (reply : GoString → Option Nat) : Except Panic Pass :=
  (answers policyByName order reply).foldlM (Pass.take policyByName) { msg }

end QueueMsg

/-- Where `RunQueueWorker` stands. -/
inductive WorkerPhase
  /-- about to call `Pop` -/
  | popping
  /-- in the `select` on `hasWork` and `isClosed` -/
  | waiting
  /-- in `ProcessMsg`, the subscribers not yet read -/
  | reading (msg : QueueMsg)
  /-- in `ProcessMsg`, with the goroutines sending -/
  | sending (policyByName : GoMap SubPolicy) (msg : QueueMsg)
  /-- at the `Add` that ends `ProcessMsg` -/
  | requeueing (msg : QueueMsg)
  | returned

def WorkerPhase.hand : WorkerPhase → Option QueueMsg
  | .reading msg | .sending _ msg | .requeueing msg => some msg
  | .popping | .waiting | .returned => none

def WorkerPhase.hasReturned : WorkerPhase → Bool
  | .returned => true
  | _ => false

theorem WorkerPhase.eq_returned {worker : WorkerPhase} (hreturned : worker.hasReturned = true) :
    worker = .returned := by
  cases worker with
  | returned => rfl
  | _ => contradiction

/-- A queue object.  `buf` stands for its ring of pointers, which `exists_rings` puts
back. -/
structure Queue where
  name : GoString
  buf : List QueueMsg := []
  subPolicies : GoMap SubPolicy := ∅
  /-- the channel of capacity one holds a token -/
  hasWork : Bool := false
  isClosed : Bool := false
  worker : WorkerPhase := .popping

def newQueue (name : GoString) : Queue := { name }

/-- A step of a worker, with what the subscribers answer.  A step ends where another
goroutine could get in between: at a lock and at a channel. -/
inductive Move
  | pop
  /-- the subscribers are read under the lock -/
  | read
  | deliver (order : GoMap.Order SubPolicy) (reply : GoString → Option Nat)
  | requeue
  | wake
  /-- the worker sees that the queue is closed -/
  | exit

namespace Queue

def add (q : Queue) (msg : QueueMsg) : Queue :=
  { q with buf := q.buf ++ [msg], hasWork := true }

/-- The body that `AddSubscriber` and `UpdateSubscriber` share; `none` is the error
`invalid subscriber metadata`. -/
def putSubscriber (q : Queue) (metadata : SubPolicy) : Option Queue :=
  if !isValidSubMetadata metadata then none
  else
    let metadata := initializeDefaultSubMetadataFields metadata
    some { q with subPolicies := q.subPolicies.insert metadata.subName metadata }

def addSubscriber (q : Queue) (metadata : SubPolicy) : Option Queue :=
  q.putSubscriber metadata

def updateSubscriber (q : Queue) (metadata : SubPolicy) : Option Queue :=
  q.putSubscriber metadata

def removeSubscriber (q : Queue) (subName : GoString) : Queue :=
  { q with subPolicies := q.subPolicies.erase subName }

def close (q : Queue) : Except Panic Queue :=
  if q.isClosed then .error (.message (lit "close of closed channel"))
  else .ok { q with isClosed := true }

def items (q : Queue) : List QueueMsg := q.worker.hand.toList ++ q.buf

def move (q : Queue) : Move → Option (Except Panic Queue)
  | .pop =>
      match q.worker, q.buf with
      | .popping, [] => some (.ok { q with worker := .waiting })
      | .popping, msg :: buf => some (.ok { q with buf, worker := .reading msg })
      | _, _ => none
  | .read =>
      match q.worker with
      | .reading msg =>
          let policyByName := msg.policyByName q.subPolicies
          if policyByName.len = 0 then some (.ok { q with worker := .popping })
          else some (.ok { q with worker := .sending policyByName msg })
      | _ => none
  | .deliver order reply =>
      match q.worker with
      | .sending policyByName msg =>
          some do
            let pass ← msg.deliver policyByName order reply
            if pass.anySubsRemaining then return { q with worker := .requeueing pass.msg }
            else return { q with worker := .popping }
      | _ => none
  | .requeue =>
      match q.worker with
      | .requeueing msg => some (.ok { q.add msg with worker := .popping })
      | _ => none
  | .wake =>
      match q.worker, q.hasWork with
      | .waiting, true => some (.ok { q with hasWork := false, worker := .popping })
      | _, _ => none
  | .exit =>
      match q.worker, q.isClosed with
      | .waiting, true => some (.ok { q with worker := .returned })
      | _, _ => none

end Queue

end SimonMQ.Push
