import SimonMQ.Durable.Restart
import SimonMQ.Simple.Buffers

namespace SimonMQ.Durable

open SimonMQ.Go
open SimonMQ.Simple (BufferOp HoldAll Made RingQueue runLists runRings)
open SimonMQ.Transition

/-! The lists of the queue objects against the rings of the code. -/

namespace Queue

def bufferOps (q : Queue) (object : Nat) : Move → List (BufferOp QueueMsg)
  | .pop => [.pop object]
  | .finish =>
      match q.worker with
      | .settling _ pass [] => if pass.anySubsRemaining then [.add object pass.msg] else []
      | _ => []
  | _ => []

def taken (q : Queue) : Move → List (Option QueueMsg)
  | .pop => [q.buf.head?]
  | _ => []

theorem runLists_of_move {q next : Queue} {move : Move} {request : Option Request}
    (hmove : q.move move = some (next, request)) {bufs : List (List QueueMsg)} {object : Nat}
    (hbuf : bufs[object]? = some q.buf) :
    runLists bufs (q.bufferOps object move) = (bufs.set object next.buf, q.taken move) := by
  have hsame : bufs.set object q.buf = bufs := Simple.set_of_getElem? hbuf
  cases move with
  | pop =>
      simp only [Queue.move] at hmove
      split at hmove
      next hworker hempty =>
          cases hmove
          simp [bufferOps, taken, runLists, BufferOp.onLists, hbuf, hempty]
      next msg buf hworker hfirst =>
          split_ifs at hmove <;>
          · cases hmove
            simp [bufferOps, taken, runLists, BufferOp.onLists, hbuf, hfirst]
      next => contradiction
  | finish =>
      simp only [Queue.move] at hmove
      split at hmove
      next policyByName pass hworker =>
          cases hmove
          simp only [bufferOps, taken, hworker]
          split_ifs
          · simp only [runLists, BufferOp.onLists, hbuf]
            rfl
          · exact Prod.ext hsame.symm rfl
      next => contradiction
  | wake | exit | deliver | settle =>
      simp only [Queue.move] at hmove
      split at hmove <;> cases hmove
      exact Prod.ext hsame.symm rfl

end Queue

namespace Broker

/-- The calls of `NewQueue`, `Add` and `Pop` in a step. -/
def bufferOps (b : Broker) : BrokerEvent → List (BufferOp QueueMsg)
  | .register =>
      match b.mu with
      | some (.creating name) => [.make name]
      | _ => []
  | .add object index =>
      match b.objects[object]? with
      | none => []
      | some q => (q.adding[index]?.map (.add object)).toList
  | .work object move =>
      match b.objects[object]? with
      | none => []
      | some q => q.bufferOps object move
  | _ => []

/-- What the worker gets from its `Pop`. -/
def taken (b : Broker) : BrokerEvent → List (Option QueueMsg)
  | .work object move =>
      match b.objects[object]? with
      | none => []
      | some q => q.taken move
  | _ => []

def bufs (b : Broker) : List (List QueueMsg) := b.objects.map Queue.buf

variable {b next : Broker} {object : Nat} {q : Queue}

theorem getElem?_bufs (hq : b.objects[object]? = some q) : b.bufs[object]? = some q.buf := by
  rw [bufs, List.getElem?_map, hq]
  rfl

theorem bufs_setObject (b : Broker) (object : Nat) (q : Queue) :
    (b.setObject object q).bufs = b.bufs.set object q.buf := by
  rw [bufs, setObject, List.map_set, bufs]

theorem bufs_updateObject (b : Broker) (object : Nat) {f : Queue → Queue}
    (hkeeps : ∀ q, (f q).buf = q.buf) : (b.updateObject object f).bufs = b.bufs := by
  unfold updateObject
  split
  next => rfl
  next q hq => rw [bufs_setObject, hkeeps, Simple.set_of_getElem? (getElem?_bufs hq)]

theorem bufs_request (b : Broker) (request : Request) : (b.request request).bufs = b.bufs := by
  unfold Broker.request
  split <;> rfl

theorem bufs_register (b : Broker) (name : GoString) :
    (b.register name).bufs = b.bufs ++ [[]] := by
  simp [bufs, register, newQueue]

theorem runLists_of_work {move : Move} (hstep : b.step (.work object move) = some next) :
    runLists b.bufs (b.bufferOps (.work object move)) =
      (next.bufs, b.taken (.work object move)) := by
  rw [step] at hstep
  split at hstep
  next => contradiction
  next q hq =>
      simp only [bufferOps, taken, hq]
      split at hstep
      next => contradiction
      next moved hmove =>
          cases hstep
          rw [bufs_setObject]
          exact Queue.runLists_of_move hmove (getElem?_bufs hq)
      next moved request hmove =>
          cases hstep
          rw [bufs_setObject, bufs_request]
          exact Queue.runLists_of_move hmove (getElem?_bufs hq)

theorem runLists_of_step {event : BrokerEvent} (hstep : b.step event = some next) :
    runLists b.bufs (b.bufferOps event) = (next.bufs, b.taken event) := by
  cases steps_of_step hstep with
  | createQueue hmu name =>
      unfold Broker.createQueue
      split_ifs
      · rfl
      · rfl
      · split <;> rfl
  | register hmu =>
      rw [bufs_register]
      simp only [bufferOps, hmu]
      rfl
  | deleteQueue hmu name =>
      unfold Broker.deleteQueue
      split
      · rfl
      · split <;> rfl
  | @unregister name object hmu =>
      refine Prod.ext ?_ rfl
      change b.bufs = (b.updateObject object Queue.close).bufs
      rw [bufs_updateObject b object (by simp [Queue.close])]
  | @editPolicies event request hrequest =>
      have hnone : b.bufferOps event = [] ∧ b.taken event = [] := by
        cases event with
        | addSubscriber | updateSubscriber | removeSubscriber => exact ⟨rfl, rfl⟩
        | _ => contradiction
      rw [bufs_request, hnone.1, hnone.2]
      rfl
  | find queueName payload =>
      unfold Broker.find
      split <;> rfl
  | @accept index call hcall uuid =>
      refine Prod.ext ?_ rfl
      change b.bufs = (b.accept call uuid).bufs
      unfold Broker.accept
      split
      · rfl
      · rw [bufs_updateObject _ _ (by simp [Queue.expect]), bufs_request]
  | add hq hmsg =>
      rw [bufs_setObject]
      simp only [bufferOps, hq, hmsg, Option.map_some, Option.toList_some, runLists,
        BufferOp.onLists, getElem?_bufs hq]
      rfl
  | work hstep => exact runLists_of_work hstep

/-- The broker with rings does as the broker with lists. -/
theorem exists_rings {events : List BrokerEvent} (hexec : exec step b events = some next)
    {rings : List (RingQueue QueueMsg)} (hold : HoldAll rings b.bufs) :
    ∃ after, runRings rings (trace step bufferOps b events) =
        .ok (after, trace step taken b events) ∧
      HoldAll after next.bufs :=
  Simple.rings_follow runLists_of_step hexec hold

theorem made_createFromWAL (hmade : Made b.bufs) (name : GoString) :
    Made (b.createFromWAL name).bufs := by
  unfold createFromWAL
  split_ifs
  · exact hmade
  · exact hmade
  · rw [bufs_register]
    exact hmade.concat

theorem made_enqueueFromWAL (hmade : Made b.bufs) (queueName msgId : GoString)
    (msg : Message) : Made (b.enqueueFromWAL queueName msgId msg).bufs := by
  unfold enqueueFromWAL
  split
  · exact hmade
  · unfold updateObject
    split
    next => exact hmade
    next q hq =>
        rw [bufs_setObject]
        exact hmade.add (getElem?_bufs hq) _

theorem made_restoreMessages (order : GoMap.Order Message) (hmade : Made b.bufs)
    (entry : GoString × GoMap Message) : Made (restoreMessages order b entry).bufs := by
  unfold restoreMessages
  split_ifs
  · refine List.foldlRecOn (motive := fun b : Broker => Made b.bufs) _ _ hmade
      fun b hmade msg _ => ?_
    split_ifs
    · exact made_enqueueFromWAL hmade _ _ _
    · exact hmade
  · exact hmade

/-- `RestoreWAL` fills the rings that a run then starts from. -/
theorem exists_rings_restoreWAL (log : List Record) (replayed : Replayed)
    (order : RestoreOrder) :
    ∃ ops rings, runRings [] ops = .ok (rings, []) ∧
      HoldAll rings (restoreWAL log replayed order).bufs := by
  apply Made.exists_rings
  unfold restoreWAL
  refine List.foldlRecOn (motive := fun b : Broker => Made b.bufs) _ _ ?_
    fun b hmade entry _ => made_restoreMessages order.messages hmade entry
  exact List.foldlRecOn (motive := fun b : Broker => Made b.bufs) _ _ Made.nil
    fun b hmade name _ => made_createFromWAL hmade name

end Broker

end SimonMQ.Durable
