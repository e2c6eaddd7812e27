import SimonMQ.Push.Broker

namespace SimonMQ.Push

open SimonMQ.Go

/-! What a step of a worker or of the broker can be. -/

inductive Moved (q : Queue) : Move → Queue → Prop
  | idled (hworker : q.worker = .popping) (hbuf : q.buf = []) :
      Moved q .pop { q with worker := .waiting }
  | popped {msg : QueueMsg} {buf : List QueueMsg} (hworker : q.worker = .popping)
      (hbuf : q.buf = msg :: buf) :
      Moved q .pop { q with buf := buf, worker := .reading msg }
  | dropped {msg : QueueMsg} (hworker : q.worker = .reading msg)
      (hnone : (msg.policyByName q.subPolicies).len = 0) :
      Moved q .read { q with worker := .popping }
  | sent {msg : QueueMsg} (hworker : q.worker = .reading msg)
      (hsome : (msg.policyByName q.subPolicies).len ≠ 0) :
      Moved q .read { q with worker := .sending (msg.policyByName q.subPolicies) msg }
  | retained {policyByName : GoMap SubPolicy} {msg : QueueMsg} {pass : QueueMsg.Pass}
      {order : GoMap.Order SubPolicy} {reply : GoString → Option Nat}
      (hworker : q.worker = .sending policyByName msg)
      (hdeliver : msg.deliver policyByName order reply = .ok pass)
      (hremaining : pass.anySubsRemaining = true) :
      Moved q (.deliver order reply) { q with worker := .requeueing pass.msg }
  | finished {policyByName : GoMap SubPolicy} {msg : QueueMsg} {pass : QueueMsg.Pass}
      {order : GoMap.Order SubPolicy} {reply : GoString → Option Nat}
      (hworker : q.worker = .sending policyByName msg)
      (hdeliver : msg.deliver policyByName order reply = .ok pass)
      (hremaining : pass.anySubsRemaining = false) :
      Moved q (.deliver order reply) { q with worker := .popping }
  | requeued {msg : QueueMsg} (hworker : q.worker = .requeueing msg) :
      Moved q .requeue { q.add msg with worker := .popping }
  | woken (hworker : q.worker = .waiting) (htoken : q.hasWork = true) :
      Moved q .wake { q with hasWork := false, worker := .popping }
  | exited (hworker : q.worker = .waiting) (hclosed : q.isClosed = true) :
      Moved q .exit { q with worker := .returned }

theorem moved_of_move {q next : Queue} {move : Move} (hmove : q.move move = some (.ok next)) :
    Moved q move next := by
  cases move with
  | pop =>
      simp only [Queue.move] at hmove
      split at hmove
      next hworker hbuf => cases hmove; exact .idled hworker hbuf
      next msg buf hworker hbuf => cases hmove; exact .popped hworker hbuf
      next => contradiction
  | read =>
      simp only [Queue.move] at hmove
      split at hmove
      next msg hworker =>
          split_ifs at hmove with hnone
          · cases hmove
            exact .dropped hworker hnone
          · cases hmove
            exact .sent hworker hnone
      next => contradiction
  | deliver order reply =>
      simp only [Queue.move] at hmove
      split at hmove
      next policyByName msg hworker =>
          rw [Option.some.injEq] at hmove
          cases hdeliver : msg.deliver policyByName order reply with
          | error panic => simp [hdeliver, bind, Except.bind] at hmove
          | ok pass =>
              simp only [hdeliver, bind, Except.bind, pure, Except.pure] at hmove
              split at hmove
              next hremaining => cases hmove; exact .retained hworker hdeliver hremaining
              next hremaining =>
                  cases hmove
                  exact .finished hworker hdeliver (Bool.not_eq_true _ ▸ hremaining)
      next => contradiction
  | requeue =>
      simp only [Queue.move] at hmove
      split at hmove
      next msg hworker => cases hmove; exact .requeued hworker
      next => contradiction
  | wake =>
      simp only [Queue.move] at hmove
      split at hmove
      next hworker htoken => cases hmove; exact .woken hworker htoken
      next => contradiction
  | exit =>
      simp only [Queue.move] at hmove
      split at hmove
      next hworker hclosed => cases hmove; exact .exited hworker hclosed
      next => contradiction

theorem deliver_of_move_error {q : Queue} {move : Move} {panic : Panic}
    (hmove : q.move move = some (.error panic)) :
    ∃ policyByName msg order reply, move = .deliver order reply ∧
      q.worker = .sending policyByName msg ∧
      msg.deliver policyByName order reply = .error panic := by
  cases move with
  | deliver order reply =>
      simp only [Queue.move] at hmove
      split at hmove
      next policyByName msg hworker =>
          refine ⟨policyByName, msg, order, reply, rfl, hworker, ?_⟩
          rw [Option.some.injEq] at hmove
          cases hdeliver : msg.deliver policyByName order reply with
          | error panic => simpa [hdeliver, bind, Except.bind] using hmove
          | ok pass =>
              simp only [hdeliver, bind, Except.bind, pure, Except.pure] at hmove
              split at hmove <;> contradiction
      next => contradiction
  | pop | read | requeue | wake | exit =>
      simp only [Queue.move] at hmove
      repeat' split at hmove
      all_goals simp at hmove

inductive Stepped (b : Broker) : BrokerEvent → Broker → Prop
  | refused {request : Request} (hquiet : b.sights (.request request) = []) :
      Stepped b (.request request) b
  | registered {name : GoString} (habsent : b.queues.lookup name = none)
      (hroom : b.numQueues < 128) :
      Stepped b (.request (.queueCreation name))
        { b with
          objects := b.objects ++ [newQueue name]
          queues := b.queues.insert name b.objects.length
          numQueues := b.numQueues + 1 }
  | unregistered {name : GoString} {object : Nat} {q : Queue}
      (hfound : b.queues.lookup name = some object) (hobject : b.objects[object]? = some q)
      (hopen : q.isClosed = false) :
      Stepped b (.request (.queueDeletion name))
        { b with
          queues := b.queues.erase name
          numQueues := b.numQueues - 1
          objects := b.objects.set object { q with isClosed := true } }
  | closedTwice {name : GoString} {object : Nat} {q : Queue} {panic : Panic}
      (hfound : b.queues.lookup name = some object) (hobject : b.objects[object]? = some q)
      (hclosed : q.isClosed = true) :
      Stepped b (.request (.queueDeletion name))
        { b with
          queues := b.queues.erase name
          numQueues := b.numQueues - 1
          panicked := some panic }
  | published {name body uuid : GoString} {object : Nat} {q : Queue}
      (hfound : b.queues.lookup name = some object) (hobject : b.objects[object]? = some q) :
      Stepped b (.request (.enqueue name (some body) uuid))
        (b.setObject object (q.add (newQueueMsg name body uuid)))
  | subscribed {request : Request} {name : GoString} {object : Nat} {q : Queue}
      {metadata : SubPolicy} (hfound : b.queues.lookup name = some object)
      (hobject : b.objects[object]? = some q) (hvalid : isValidSubMetadata metadata = true)
      (hsights : b.sights (.request request) =
        [.subscribed object (initializeDefaultSubMetadataFields metadata)]) :
      Stepped b (.request request)
        (b.setObject object { q with
          subPolicies := q.subPolicies.insert metadata.subName
            (initializeDefaultSubMetadataFields metadata) })
  | unsubscribed {name subName : GoString} {object : Nat} {q : Queue}
      (hfound : b.queues.lookup name = some object) (hobject : b.objects[object]? = some q) :
      Stepped b (.request (.subPolicyDeletion name subName))
        (b.setObject object (q.removeSubscriber subName))
  | worked {object : Nat} {move : Move} {q next : Queue}
      (hobject : b.objects[object]? = some q) (hmoved : Moved q move next) :
      Stepped b (.work object move) (b.setObject object next)
  | crashed {object : Nat} {move : Move} {q : Queue} {panic : Panic}
      (hobject : b.objects[object]? = some q)
      (hmove : q.move move = some (.error panic)) :
      Stepped b (.work object move) { b with panicked := some panic }

theorem getQueue_eq_ok {b : Broker} {name : GoString} {object : Nat} {q : Queue}
    (hget : b.getQueue name = .ok (object, q)) :
    b.queues.lookup name = some object ∧ b.objects[object]? = some q := by
  unfold Broker.getQueue at hget
  split at hget
  next => contradiction
  next found hfound =>
      split at hget
      next => contradiction
      next q hobject =>
          cases hget
          exact ⟨hfound, hobject⟩

theorem getQueue_of_lookup {b : Broker} {name : GoString} {object : Nat} {q : Queue}
    (hfound : b.queues.lookup name = some object) (hobject : b.objects[object]? = some q) :
    b.getQueue name = .ok (object, q) := by
  simp only [Broker.getQueue, hfound, hobject]

theorem initializeDefaultSubMetadataFields_subName (metadata : SubPolicy) :
    (initializeDefaultSubMetadataFields metadata).subName = metadata.subName := by
  unfold initializeDefaultSubMetadataFields
  split_ifs <;> rfl

theorem stepped_of_put {b : Broker} {request : Request} (success : Response)
    {metadata : SubPolicy} {name : GoString}
    (hsights : b.sights (.request request) = b.subscription name (some metadata)) :
    Stepped b (.request request) (b.reply success (b.addSubscriber metadata name)).1 := by
  simp only [Broker.addSubscriber, Broker.subscription] at hsights ⊢
  cases hget : b.getQueue name with
  | error err =>
      rw [hget] at hsights
      exact .refused hsights
  | ok found =>
      obtain ⟨object, q⟩ := found
      obtain ⟨hfound, hobject⟩ := getQueue_eq_ok hget
      simp only [hget] at hsights
      simp only [bind, Except.bind, Queue.addSubscriber, Queue.putSubscriber,
        initializeDefaultSubMetadataFields_subName]
      cases hvalid : isValidSubMetadata metadata with
      | false =>
          rw [hvalid] at hsights
          exact .refused hsights
      | true =>
          rw [hvalid] at hsights
          exact .subscribed hfound hobject hvalid hsights

theorem stepped_of_request {b : Broker} (request : Request) :
    Stepped b (.request request) (b.handle request).1 := by
  cases request with
  | queueCreation name =>
      simp only [Broker.handle, Broker.handleQueueCreation, Broker.createQueue]
      split_ifs with hpresent hfull
      · exact .refused rfl
      · exact .refused rfl
      · exact .registered (Finmap.lookup_eq_none.mpr hpresent) (Int.not_le.mp hfull)
  | queueDeletion name =>
      simp only [Broker.handle, Broker.handleQueueDeletion, Broker.deleteQueue]
      cases hget : b.getQueue name with
      | error err => exact .refused rfl
      | ok found =>
          obtain ⟨object, q⟩ := found
          obtain ⟨hfound, hobject⟩ := getQueue_eq_ok hget
          cases hclosed : q.isClosed with
          | true =>
              simp only [Queue.close, hclosed, if_true]
              exact .closedTwice hfound hobject hclosed
          | false =>
              simp only [Queue.close, hclosed, Bool.false_eq_true, if_false]
              exact .unregistered hfound hobject hclosed
  | enqueue name body uuid =>
      cases body with
      | none => exact .refused rfl
      | some body =>
          simp only [Broker.handle, Broker.handleEnqueue, Broker.enqueue]
          cases hget : b.getQueue name with
          | error err => exact .refused (by simp only [Broker.sights, hget])
          | ok found =>
              obtain ⟨object, q⟩ := found
              obtain ⟨hfound, hobject⟩ := getQueue_eq_ok hget
              exact .published hfound hobject
  | subPolicyCreation name body =>
      simp only [Broker.handle, Broker.handleSubPolicyCreation]
      split
      next => exact .refused rfl
      next body =>
          split
          next hdecode => exact .refused (by rw [Broker.sights, hdecode]; rfl)
          next policy hdecode =>
              exact stepped_of_put .created (by rw [Broker.sights, hdecode])
  | subPolicyUpdate name subName body =>
      simp only [Broker.handle, Broker.handleSubPolicyUpdate]
      split
      next => exact .refused rfl
      next body =>
          split
          next hdecode => exact .refused (by rw [Broker.sights, hdecode]; rfl)
          next policy hdecode =>
              exact stepped_of_put .ok (by rw [Broker.sights, hdecode, Option.map_some])
  | subPolicyDeletion name subName =>
      simp only [Broker.handle, Broker.handleSubPolicyDeletion, Broker.removeSubscriber]
      cases hget : b.getQueue name with
      | error err => exact .refused rfl
      | ok found =>
          obtain ⟨object, q⟩ := found
          obtain ⟨hfound, hobject⟩ := getQueue_eq_ok hget
          exact .unsubscribed hfound hobject

theorem stepped_of_step {b next : Broker} {event : BrokerEvent}
    (hstep : b.step event = some next) : Stepped b event next := by
  unfold Broker.step at hstep
  split at hstep
  next => contradiction
  next =>
      cases event with
      | request request =>
          cases hstep
          exact stepped_of_request request
      | work object move =>
          simp only at hstep
          split at hstep
          next => contradiction
          next q hobject =>
              split at hstep
              next => contradiction
              next panic hmove =>
                  cases hstep
                  exact .crashed hobject hmove
              next moved hmove =>
                  cases hstep
                  exact .worked hobject (moved_of_move hmove)

end SimonMQ.Push
