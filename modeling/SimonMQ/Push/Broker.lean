import SimonMQ.Push.Queue
import SimonMQ.Attempts
import SimonMQ.Transition

namespace SimonMQ.Push

open SimonMQ.Go
open SimonMQ.Attempts (Attempt)

/-! The broker and its HTTP handlers.  `Broker.mu` is held from the first line of every
call to its last, so a call is one step; the workers run beside the calls. -/

inductive BrokerError
  | alreadyExists (name : GoString)
  | tooManyQueues (numQueues : Int)
  | doesNotExist (name : GoString)
  | invalidMetadata
  deriving DecidableEq, Repr

def BrokerError.text : BrokerError → GoString
  | .alreadyExists name => lit "queue " ++ name ++ lit " already exists"
  | .tooManyQueues numQueues => lit "too many queues " ++ formatInt numQueues
  | .doesNotExist name => lit "queue " ++ name ++ lit " does not exist"
  | .invalidMetadata => lit "invalid subscriber metadata"

structure Broker where
  /-- the registered object of each name -/
  queues : GoMap Nat := ∅
  numQueues : Int := 0
  /-- every object ever made -/
  objects : List Queue := []
  /-- the first panic; nothing is followed beyond it -/
  panicked : Option Panic := none

namespace Broker

def setObject (b : Broker) (object : Nat) (q : Queue) : Broker :=
  { b with objects := b.objects.set object q }

/-- `getQueue`, as the object and its place among all objects. -/
def getQueue (b : Broker) (name : GoString) : Except BrokerError (Nat × Queue) :=
  match b.queues.lookup name with
  | none => .error (.doesNotExist name)
  | some object =>
      match b.objects[object]? with
      | none => .error (.doesNotExist name)
      | some q => .ok (object, q)

def createQueue (b : Broker) (name : GoString) : Except BrokerError Broker :=
  if name ∈ b.queues then .error (.alreadyExists name)
  else if 128 ≤ b.numQueues then .error (.tooManyQueues b.numQueues)
  else
    .ok { b with
      objects := b.objects ++ [newQueue name]
      queues := b.queues.insert name b.objects.length
      numQueues := b.numQueues + 1 }

def deleteQueue (b : Broker) (name : GoString) : Broker :=
  match b.getQueue name with
  | .error _ => b
  | .ok (object, q) =>
      let b := { b with queues := b.queues.erase name, numQueues := b.numQueues - 1 }
      match q.close with
      | .error panic => { b with panicked := some panic }
      | .ok q => b.setObject object q

def enqueue (b : Broker) (name payload uuid : GoString) : Except BrokerError Broker := do
  let msg := newQueueMsg name payload uuid
  let (object, q) ← b.getQueue name
  return b.setObject object (q.add msg)

def addSubscriber (b : Broker) (metadata : SubPolicy) (queueName : GoString) :
    Except BrokerError Broker := do
  let (object, q) ← b.getQueue queueName
  match q.addSubscriber metadata with
  | none => .error .invalidMetadata
  | some q => return b.setObject object q

def updateSubscriber (b : Broker) (metadata : SubPolicy) (queueName : GoString) :
    Except BrokerError Broker := do
  let (object, q) ← b.getQueue queueName
  match q.updateSubscriber metadata with
  | none => .error .invalidMetadata
  | some q => return b.setObject object q

def removeSubscriber (b : Broker) (subName queueName : GoString) :
    Except BrokerError Broker := do
  let (object, q) ← b.getQueue queueName
  return b.setObject object (q.removeSubscriber subName)

end Broker

/-- A request to one of the routes.  A body that could not be read is `none`. -/
inductive Request
  | queueCreation (queueName : GoString)
  | queueDeletion (queueName : GoString)
  | enqueue (queueName : GoString) (body : Option Bytes) (uuid : GoString)
  | subPolicyCreation (queueName : GoString) (body : Option Bytes)
  | subPolicyUpdate (queueName subName : GoString) (body : Option Bytes)
  | subPolicyDeletion (queueName subName : GoString)
  deriving DecidableEq, Repr

/-- Why a request is answered with status 400. -/
inductive Refusal
  | unreadable
  | malformed
  /-- what `err.Error()` of the call says -/
  | broker (text : GoString)
  deriving DecidableEq, Repr

inductive Response
  | created
  | noContent
  | accepted
  | ok
  | badRequest (refusal : Refusal)
  deriving DecidableEq, Repr

def Response.isSuccess : Response → Bool
  | .badRequest _ => false
  | _ => true

namespace Broker

def reply (b : Broker) (success : Response) : Except BrokerError Broker → Broker × Response
  | .error err => (b, .badRequest (.broker err.text))
  | .ok b => (b, success)

def handleQueueCreation (b : Broker) (name : GoString) : Broker × Response :=
  b.reply .created (b.createQueue name)

def handleQueueDeletion (b : Broker) (name : GoString) : Broker × Response :=
  (b.deleteQueue name, .noContent)

def handleEnqueue (b : Broker) (name : GoString) (body : Option Bytes) (uuid : GoString) :
    Broker × Response :=
  match body with
  | none => (b, .badRequest .unreadable)
  | some body => b.reply .accepted (b.enqueue name body uuid)

def handleSubPolicyCreation (b : Broker) (queueName : GoString) (body : Option Bytes) :
    Broker × Response :=
  match body with
  | none => (b, .badRequest .unreadable)
  | some body =>
      match decodeSubPolicy body with
      | none => (b, .badRequest .malformed)
      | some policy => b.reply .created (b.addSubscriber policy queueName)

def handleSubPolicyUpdate (b : Broker) (queueName subName : GoString)
    (body : Option Bytes) : Broker × Response :=
  match body with
  | none => (b, .badRequest .unreadable)
  | some body =>
      match decodeSubPolicy body with
      | none => (b, .badRequest .malformed)
      | some policy =>
          b.reply .ok (b.updateSubscriber { policy with subName := subName } queueName)

def handleSubPolicyDeletion (b : Broker) (queueName subName : GoString) :
    Broker × Response :=
  b.reply .noContent (b.removeSubscriber subName queueName)

def handle (b : Broker) : Request → Broker × Response
  | .queueCreation queueName => b.handleQueueCreation queueName
  | .queueDeletion queueName => b.handleQueueDeletion queueName
  | .enqueue queueName body uuid => b.handleEnqueue queueName body uuid
  | .subPolicyCreation queueName body => b.handleSubPolicyCreation queueName body
  | .subPolicyUpdate queueName subName body => b.handleSubPolicyUpdate queueName subName body
  | .subPolicyDeletion queueName subName => b.handleSubPolicyDeletion queueName subName

end Broker

inductive BrokerEvent
  | request (request : Request)
  | work (object : Nat) (move : Move)

/-- What can be seen of a run. -/
inductive Sight
  /-- a policy was added or updated, with its defaults -/
  | subscribed (object : Nat) (policy : SubPolicy)
  /-- a publish was answered with 202 -/
  | accepted (object : Nat) (msgId payload : GoString)
  /-- the body was posted to the subscriber's URL -/
  | posted (object : Nat) (msgId payload : GoString) (policy : SubPolicy) (ok : Bool)
  /-- `ProcessMsg` returned without adding the message again.  It had read these
  subscribers: the whole queue's if none of them was left, and else the ones left. -/
  | retired (msg : QueueMsg) (subscribers : GoMap SubPolicy)
  deriving DecidableEq

def Queue.sights (q : Queue) (object : Nat) : Move → List Sight
  | .read =>
      match q.worker with
      | .reading msg =>
          if (msg.policyByName q.subPolicies).len = 0 then [.retired msg q.subPolicies] else []
      | _ => []
  | .deliver order reply =>
      match q.worker with
      | .sending policyByName msg =>
          ((order.walk policyByName).map fun entry =>
            .posted object msg.msgId msg.payload entry.2 (sendMsg (reply entry.2.subName))) ++
          match msg.deliver policyByName order reply with
          | .ok ⟨msg, false⟩ => [.retired msg policyByName]
          | _ => []
      | _ => []
  | _ => []

namespace Sight

def acceptedId : Sight → Option GoString
  | .accepted _ msgId _ => some msgId
  | _ => none

def retiredId : Sight → Option GoString
  | .retired msg _ => some msg.msgId
  | _ => none

def attempt : Sight → Option (Attempt (GoString × GoString))
  | .posted _ msgId _ policy ok =>
      some ⟨(msgId, policy.subName), policy.numberOfRetries.toInt, ok⟩
  | _ => none

end Sight

namespace Broker

def step (b : Broker) (event : BrokerEvent) : Option Broker :=
  match b.panicked with
  | some _ => none
  | none =>
      match event with
      | .request request => some (b.handle request).1
      | .work object move =>
          match b.objects[object]? with
          | none => none
          | some q =>
              match q.move move with
              | none => none
              | some (.error panic) => some { b with panicked := some panic }
              | some (.ok q) => some (b.setObject object q)

def subscription (b : Broker) (queueName : GoString) : Option SubPolicy → List Sight
  | none => []
  | some metadata =>
      match b.getQueue queueName with
      | .error _ => []
      | .ok (object, _) =>
          if isValidSubMetadata metadata then
            [.subscribed object (initializeDefaultSubMetadataFields metadata)]
          else []

def sights (b : Broker) : BrokerEvent → List Sight
  | .request (.enqueue queueName (some body) uuid) =>
      match b.getQueue queueName with
      | .error _ => []
      | .ok (object, _) => [.accepted object (newQueueMsg queueName body uuid).msgId body]
  | .request (.subPolicyCreation queueName (some body)) =>
      b.subscription queueName (decodeSubPolicy body)
  | .request (.subPolicyUpdate queueName subName (some body)) =>
      b.subscription queueName
        ((decodeSubPolicy body).map fun policy => { policy with subName := subName })
  | .request _ => []
  | .work object move =>
      match b.objects[object]? with
      | none => []
      | some q => q.sights object move

end Broker

end SimonMQ.Push
