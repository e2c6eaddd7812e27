import SimonMQ.Durable.Coordinator
import SimonMQ.Durable.Drift
import SimonMQ.Durable.Pass
import SimonMQ.Transition

namespace SimonMQ.Durable

open SimonMQ.Go
open SimonMQ.Go.Utf8

/-! The broker: queue objects with a worker each, and API calls that run beside the
workers and beside each other.  A step ends where another goroutine could get in
between: at a lock, at a channel and at an append.  No append fails. -/

/-- Where `RunQueueWorker` stands. -/
inductive WorkerPhase
  /-- about to call `Pop` -/
  | popping
  /-- in the `select` on `hasWork` and `isClosed` -/
  | waiting
  /-- in `ProcessMsg`: the goroutines are sending -/
  | sending (msg : QueueMsg)
  /-- in `ProcessMsg`: the loop over the results, some of them left -/
  | settling (policyByName : GoMap SubPolicy) (pass : QueueMsg.Pass)
      (left : List DeliveryResult)
  | returned

def WorkerPhase.hand : WorkerPhase → Option QueueMsg
  | .sending msg => some msg
  | .settling _ pass _ => some pass.msg
  | _ => none

/-- A queue object.  `buf` stands for its ring of pointers, which `exists_rings` puts
back. -/
structure Queue where
  name : GoString
  /-- accepted by `Enqueue` calls that are about to `Add` to this object -/
  adding : List QueueMsg := []
  buf : List QueueMsg := []
  /-- the channel of capacity one holds a token -/
  hasWork : Bool := false
  isClosed : Bool := false
  worker : WorkerPhase := .popping

def newQueue (name : GoString) : Queue := { name }

/-- A step of a worker, with what the subscribers answer. -/
inductive Move
  /-- `Pop`, up to the first send -/
  | pop
  | wake
  /-- the worker sees that the queue is closed -/
  | exit
  | deliver (order : GoMap.Order SubPolicy) (outcome : GoString → Bool)
  /-- one result, with its `onAck` -/
  | settle
  /-- the end of `ProcessMsg` -/
  | finish

namespace Queue

def add (q : Queue) (msg : QueueMsg) : Queue :=
  { q with buf := q.buf ++ [msg], hasWork := true }

def close (q : Queue) : Queue := { q with isClosed := true }

/-- A call with this message is going to `Add` it. -/
def expect (msg : QueueMsg) (q : Queue) : Queue := { q with adding := msg :: q.adding }

def items (q : Queue) : List QueueMsg := q.adding ++ q.worker.hand.toList ++ q.buf

def move (q : Queue) : Move → Option (Queue × Option Request)
  | .pop =>
      match q.worker, q.buf with
      | .popping, [] => some ({ q with worker := .waiting }, none)
      | .popping, msg :: buf =>
          if msg.policyByName.len = 0 then some ({ q with buf }, none)
          else some ({ q with buf, worker := .sending msg }, none)
      | _, _ => none
  | .wake =>
      match q.worker, q.hasWork with
      | .waiting, true => some ({ q with hasWork := false, worker := .popping }, none)
      | _, _ => none
  | .exit =>
      match q.worker, q.isClosed with
      | .waiting, true => some ({ q with worker := .returned }, none)
      | _, _ => none
  | .deliver order outcome =>
      match q.worker with
      | .sending msg =>
          let left := msg.answers order outcome
          some ({ q with worker := .settling msg.policyByName { msg } left }, none)
      | _ => none
  | .settle =>
      match q.worker with
      | .settling policyByName pass (result :: left) =>
          let acked := (pass.msg.judge policyByName result).2
          let pass' := pass.take policyByName (fun _ => true) result
          some ({ q with worker := .settling policyByName pass' left },
            if acked then some (.ack q.name pass.msg.msgId result.subName) else none)
      | _ => none
  | .finish =>
      match q.worker with
      | .settling _ pass [] =>
          let q := if pass.anySubsRemaining then q.add pass.msg else q
          some ({ q with worker := .popping }, none)
      | _ => none

end Queue

/-- Who holds `Broker.mu` across a coordinator call. -/
inductive Holder
  /-- `CREATE_QUEUE` is logged, the object not yet made -/
  | creating (name : GoString)
  /-- `DELETE_QUEUE` is logged, the object still registered -/
  | deleting (name : GoString) (object : Nat)

/-- An `Enqueue` call that has looked its queue up. -/
structure EnqueueCall where
  queueName : GoString
  payload : GoString
  object : Nat

def EnqueueCall.msgId (call : EnqueueCall) (uuid : GoString) : GoString :=
  call.queueName ++ lit "-" ++ uuid

structure Broker where
  /-- the coordinator's catalog -/
  cat : Catalog := ∅
  /-- every record the coordinator was asked to append -/
  log : List Record := []
  /-- the registered object of each name -/
  queues : GoMap Nat := ∅
  numQueues : Int := 0
  mu : Option Holder := none
  /-- every object ever made -/
  objects : List Queue := []
  calls : List EnqueueCall := []

inductive BrokerEvent
  | createQueue (name : GoString)
  | register
  | deleteQueue (name : GoString)
  | unregister
  | addSubscriber (policy : SubPolicy) (queueName : GoString)
  | updateSubscriber (policy : SubPolicy) (queueName : GoString)
  | removeSubscriber (subName queueName : GoString)
  /-- the first step of `Enqueue` -/
  | find (queueName payload : GoString)
  /-- `Coordinator.Enqueue` within a call -/
  | accept (call : Nat) (uuid : GoString)
  /-- the last step of a call -/
  | add (object index : Nat)
  | work (object : Nat) (move : Move)

namespace Broker

def append (b : Broker) (rec : Record) : Broker :=
  { b with cat := b.cat.after rec, log := b.log ++ [rec] }

/-- A coordinator call; a refused one changes nothing. -/
def request (b : Broker) (request : Request) : Broker :=
  match b.cat.record request with
  | .error _ => b
  | .ok rec => b.append rec

def setObject (b : Broker) (object : Nat) (q : Queue) : Broker :=
  { b with objects := b.objects.set object q }

def updateObject (b : Broker) (object : Nat) (f : Queue → Queue) : Broker :=
  match b.objects[object]? with
  | none => b
  | some q => b.setObject object (f q)

/-- `CreateQueue` up to its append. -/
def createQueue (b : Broker) (name : GoString) : Broker :=
  if name ∈ b.queues then b
  else if 128 ≤ b.numQueues then b
  else
    match b.cat.record (.createQueue name) with
    | .error _ => b
    | .ok rec => { b.append rec with mu := some (.creating name) }

/-- The rest of `CreateQueue`. -/
def register (b : Broker) (name : GoString) : Broker :=
  { b with
    objects := b.objects ++ [newQueue name]
    queues := b.queues.insert name b.objects.length
    numQueues := b.numQueues + 1
    mu := none }

/-- `DeleteQueue` up to its append. -/
def deleteQueue (b : Broker) (name : GoString) : Broker :=
  match b.queues.lookup name with
  | none => b
  | some object =>
      match b.cat.record (.deleteQueue name) with
      | .error _ => b
      | .ok rec => { b.append rec with mu := some (.deleting name object) }

/-- The rest of `DeleteQueue`. -/
def unregister (b : Broker) (name : GoString) (object : Nat) : Broker :=
  { b.updateObject object Queue.close with
    queues := b.queues.erase name
    numQueues := b.numQueues - 1
    mu := none }

/-- The lookup of `Enqueue`. -/
def find (b : Broker) (queueName payload : GoString) : Broker :=
  match b.queues.lookup queueName with
  | none => b
  | some object => { b with calls := b.calls ++ [⟨queueName, payload, object⟩] }

/-- `Coordinator.Enqueue` for a call that then has a message to add. -/
def accept (b : Broker) (call : EnqueueCall) (uuid : GoString) : Broker :=
  match b.cat.lookup call.queueName with
  | none => b
  | some subList =>
      let msg := newQueueMsg (call.msgId uuid) call.payload subList ∅
      (b.request (.enqueue call.queueName msg.msgId call.payload)).updateObject
        call.object (Queue.expect msg)

def step (b : Broker) : BrokerEvent → Option Broker
  | .createQueue name =>
      match b.mu with
      | some _ => none
      | none => some (b.createQueue name)
  | .register =>
      match b.mu with
      | some (.creating name) => some (b.register name)
      | _ => none
  | .deleteQueue name =>
      match b.mu with
      | some _ => none
      | none => some (b.deleteQueue name)
  | .unregister =>
      match b.mu with
      | some (.deleting name object) => some (b.unregister name object)
      | _ => none
  | .addSubscriber policy queueName => some (b.request (.updateSubPolicy queueName policy))
  | .updateSubscriber policy queueName =>
      some (b.request (.updateSubPolicy queueName policy))
  | .removeSubscriber subName queueName =>
      some (b.request (.deleteSubPolicy queueName subName))
  | .find queueName payload =>
      match b.mu with
      | some _ => none
      | none => some (b.find queueName payload)
  | .accept index uuid =>
      match b.calls[index]? with
      | none => none
      | some call => some { b.accept call uuid with calls := b.calls.eraseIdx index }
  | .add object index =>
      match b.objects[object]? with
      | none => none
      | some q =>
          match q.adding[index]? with
          | none => none
          | some msg =>
              let q := { q with adding := q.adding.eraseIdx index }
              some (b.setObject object (q.add msg))
  | .work object move =>
      match b.objects[object]? with
      | none => none
      | some q =>
          match q.move move with
          | none => none
          | some (q, none) => some (b.setObject object q)
          | some (q, some request) => some ((b.request request).setObject object q)

def ledger (b : Broker) : Ledger := ({} : Ledger).followAll b.log

def newId (b : Broker) : BrokerEvent → Option GoString
  | .accept index uuid => b.calls[index]?.map fun call => call.msgId uuid
  | _ => none

/-- What `uuid.New` is trusted with: the new id, as the log shows it, is not in use. -/
def Fresh (b : Broker) (event : BrokerEvent) : Prop :=
  ∀ msgId ∈ b.newId event, toValid msgId ∉ enqueuedIds b.log

instance (b : Broker) (event : BrokerEvent) : Decidable (b.Fresh event) :=
  inferInstanceAs (Decidable (∀ msgId ∈ b.newId event, toValid msgId ∉ enqueuedIds b.log))

end Broker

end SimonMQ.Durable
