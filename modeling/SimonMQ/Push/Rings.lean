import SimonMQ.Push.Steps
import SimonMQ.Simple.Buffers

namespace SimonMQ.Push

open SimonMQ.Go
open SimonMQ.Simple (BufferOp HoldAll RingQueue runLists runRings)
open SimonMQ.Transition

/-! The lists of the queue objects against the rings of the code. -/

def Queue.bufferOps (q : Queue) (object : Nat) : Move → List (BufferOp QueueMsg)
  | .pop => [.pop object]
  | .requeue =>
      match q.worker with
      | .requeueing msg => [.add object msg]
      | _ => []
  | _ => []

namespace Broker

/-- The calls of `NewQueue`, `Add` and `Pop` in a step. -/
def bufferOps (b : Broker) : BrokerEvent → List (BufferOp QueueMsg)
  | .request (.queueCreation name) =>
      match b.createQueue name with
      | .error _ => []
      | .ok _ => [.make name]
  | .request (.enqueue name (some body) uuid) =>
      match b.getQueue name with
      | .error _ => []
      | .ok (object, _) => [.add object (newQueueMsg name body uuid)]
  | .request _ => []
  | .work object move =>
      match b.objects[object]? with
      | none => []
      | some q => q.bufferOps object move

/-- What the worker goes on with after its `Pop`. -/
def taken (b : Broker) : BrokerEvent → List (Option QueueMsg)
  | .work object .pop =>
      match b.step (.work object .pop) with
      | none => []
      | some next => (next.objects[object]?.map fun q => q.worker.hand).toList
  | _ => []

def bufs (b : Broker) : List (List QueueMsg) := b.objects.map Queue.buf

variable {b next : Broker} {object : Nat} {q moved : Queue}

theorem getElem?_bufs (hobject : b.objects[object]? = some q) :
    b.bufs[object]? = some q.buf := by
  rw [bufs, List.getElem?_map, hobject]
  rfl

theorem bufs_setObject (b : Broker) (object : Nat) (q : Queue) :
    (b.setObject object q).bufs = b.bufs.set object q.buf := by
  rw [bufs, setObject, List.map_set, bufs]

theorem bufs_set_self (hobject : b.objects[object]? = some q) :
    b.bufs.set object q.buf = b.bufs :=
  Simple.set_of_getElem? (getElem?_bufs hobject)

theorem taken_of_step (hobject : b.objects[object]? = some q)
    (hstep : b.step (.work object .pop) = some (b.setObject object moved)) :
    b.taken (.work object .pop) = [moved.worker.hand] := by
  have hlt : object < b.objects.length := (List.getElem?_eq_some_iff.mp hobject).1
  simp only [taken, hstep, setObject, List.getElem?_set_self hlt]
  rfl

theorem createQueue_of_room {name : GoString} (habsent : b.queues.lookup name = none)
    (hroom : b.numQueues < 128) :
    b.createQueue name = .ok { b with
      objects := b.objects ++ [newQueue name]
      queues := b.queues.insert name b.objects.length
      numQueues := b.numQueues + 1 } := by
  rw [createQueue, if_neg (Finmap.lookup_eq_none.mp habsent), if_neg (Int.not_le.mpr hroom)]

theorem bufs_of_createQueue {name : GoString} (hcreate : b.createQueue name = .ok next) :
    next.bufs = b.bufs ++ [[]] := by
  unfold createQueue at hcreate
  split_ifs at hcreate
  cases hcreate
  simp [bufs, newQueue]

theorem bufferOps_of_unchanged {request : Request} (hsame : (b.handle request).1 = b)
    (hquiet : b.sights (.request request) = []) : b.bufferOps (.request request) = [] := by
  cases request with
  | queueCreation name =>
      simp only [bufferOps]
      cases hcreate : b.createQueue name with
      | error err => rfl
      | ok next =>
          simp only [handle, handleQueueCreation, hcreate, reply] at hsame
          have hbufs := congrArg List.length (bufs_of_createQueue hcreate)
          simp [hsame] at hbufs
  | enqueue name body uuid =>
      cases body with
      | none => rfl
      | some body =>
          simp only [sights] at hquiet
          simp only [bufferOps]
          cases hget : b.getQueue name with
          | error err => rfl
          | ok found => simp [hget] at hquiet
  | queueDeletion | subPolicyCreation | subPolicyUpdate | subPolicyDeletion => rfl

theorem bufferOps_of_subscribed {request : Request} {policy : SubPolicy}
    (hsights : b.sights (.request request) = [.subscribed object policy]) :
    b.bufferOps (.request request) = [] := by
  cases request with
  | enqueue name body uuid =>
      cases body with
      | none => rfl
      | some body =>
          simp only [sights] at hsights
          split at hsights <;> simp at hsights
  | queueCreation => simp [sights] at hsights
  | queueDeletion | subPolicyCreation | subPolicyUpdate | subPolicyDeletion => rfl

theorem runLists_worked (hobject : b.objects[object]? = some q) {move : Move}
    (hmoved : Moved q move moved)
    (hstep : b.step (.work object move) = some (b.setObject object moved)) :
    runLists b.bufs (b.bufferOps (.work object move)) =
      ((b.setObject object moved).bufs, b.taken (.work object move)) := by
  have hbuf := getElem?_bufs hobject
  rw [bufs_setObject]
  cases hmoved with
  | idled hworker hempty =>
      rw [taken_of_step hobject hstep]
      simp only [bufferOps, hobject, Queue.bufferOps, runLists, BufferOp.onLists, hbuf, hempty]
      rfl
  | popped hworker hfirst =>
      rw [taken_of_step hobject hstep]
      simp only [bufferOps, hobject, Queue.bufferOps, runLists, BufferOp.onLists, hbuf, hfirst]
      rfl
  | requeued hworker =>
      simp only [bufferOps, hobject, Queue.bufferOps, hworker, runLists, BufferOp.onLists, hbuf]
      rfl
  | dropped | sent | retained | finished | woken | exited =>
      simp only [bufferOps, hobject, Queue.bufferOps, taken, runLists, bufs_set_self hobject]

theorem runLists_of_step {event : BrokerEvent} (hstep : b.step event = some next) :
    runLists b.bufs (b.bufferOps event) = (next.bufs, b.taken event) := by
  cases stepped_of_step hstep with
  | refused hquiet =>
      rw [bufferOps_of_unchanged _ hquiet]
      · rfl
      · unfold step at hstep
        split at hstep
        next => contradiction
        next => exact Option.some.inj hstep
  | registered habsent hroom =>
      have hcreate := createQueue_of_room habsent hroom
      rw [bufs_of_createQueue hcreate]
      simp only [bufferOps, hcreate]
      rfl
  | unregistered hfound hobject =>
      refine Prod.ext ?_ rfl
      change b.bufs = List.map Queue.buf (b.objects.set _ _)
      rw [List.map_set]
      exact (bufs_set_self hobject).symm
  | closedTwice => rfl
  | published hfound hobject =>
      simp only [bufferOps, getQueue_of_lookup hfound hobject, runLists, BufferOp.onLists,
        getElem?_bufs hobject, bufs_setObject]
      rfl
  | subscribed hfound hobject hvalid hsights =>
      rw [bufferOps_of_subscribed hsights, bufs_setObject]
      exact Prod.ext (bufs_set_self hobject).symm rfl
  | unsubscribed hfound hobject =>
      rw [bufs_setObject]
      exact Prod.ext (bufs_set_self hobject).symm rfl
  | worked hobject hmoved => exact runLists_worked hobject hmoved hstep
  | crashed hobject hmove =>
      obtain ⟨policyByName, msg, order, reply, rfl, -⟩ := deliver_of_move_error hmove
      simp only [bufferOps, hobject]
      rfl

/-- The broker with rings does as the broker with lists. -/
theorem exists_rings {events : List BrokerEvent} (hexec : exec step {} events = some b) :
    ∃ rings, runRings [] (trace step bufferOps {} events) =
        .ok (rings, trace step taken {} events) ∧
      HoldAll rings b.bufs :=
  Simple.rings_follow runLists_of_step hexec HoldAll.nil

end Broker

end SimonMQ.Push
