import SimonMQ.Push.Registry

namespace SimonMQ.Push

open SimonMQ.Go
open SimonMQ.Transition

/-! Where a message goes.  Queue objects of one name may follow each other, and a worker
may still be sending for one that is gone; each keeps to its own messages and
subscribers. -/

/-- Everything in the object got there by a request to it. -/
structure Queue.Addressed (q : Queue) (object : Nat) (seen : List Sight) : Prop where
  items : ∀ msg ∈ q.items, .accepted object msg.msgId msg.payload ∈ seen
  subscribers : ∀ name policy, q.subPolicies.lookup name = some policy →
    .subscribed object policy ∈ seen
  sending : ∀ {policyByName msg}, q.worker = .sending policyByName msg →
    ∀ name policy, policyByName.lookup name = some policy → .subscribed object policy ∈ seen

namespace Queue.Addressed

variable {q next : Queue} {object : Nat} {seen : List Sight} {move : Move}

theorem append (haddressed : q.Addressed object seen) (later : List Sight) :
    q.Addressed object (seen ++ later) where
  items := fun msg hmem => List.mem_append_left _ (haddressed.items msg hmem)
  subscribers := fun name policy hpolicy =>
    List.mem_append_left _ (haddressed.subscribers name policy hpolicy)
  sending := fun hworker name policy hpolicy =>
    List.mem_append_left _ (haddressed.sending hworker name policy hpolicy)

theorem exists_item (hok : q.Ok) (hmoved : Moved q move next) {msg : QueueMsg}
    (hmem : msg ∈ next.items) :
    ∃ old ∈ q.items, old.msgId = msg.msgId ∧ old.payload = msg.payload := by
  cases hmoved with
  | @retained policyByName held pass order reply hworker hdeliver hremaining =>
      have hdelivered := QueueMsg.delivered_of_deliver
        (hok.sending hworker).subscribers.keyed hdeliver
      simp only [Queue.items, WorkerPhase.hand, Option.toList_some, List.singleton_append,
        List.mem_cons] at hmem
      rcases hmem with rfl | hbuf
      · refine ⟨held, ?_, hdelivered.msgId_eq.symm, hdelivered.payload_eq.symm⟩
        simp [Queue.items, hworker, WorkerPhase.hand]
      · exact ⟨msg, List.mem_append_right _ hbuf, rfl, rfl⟩
  | popped hworker hbuf =>
      exact ⟨msg, by simpa [Queue.items, hworker, hbuf, WorkerPhase.hand] using hmem, rfl, rfl⟩
  | dropped hworker | finished hworker =>
      exact ⟨msg, List.mem_append_right _ (by simpa [Queue.items, WorkerPhase.hand] using hmem),
        rfl, rfl⟩
  | requeued hworker =>
      refine ⟨msg, ?_, rfl, rfl⟩
      simpa [Queue.items, Queue.add, hworker, WorkerPhase.hand, or_comm] using hmem
  | idled hworker | sent hworker | woken hworker | exited hworker =>
      exact ⟨msg, by simpa [Queue.items, hworker, WorkerPhase.hand] using hmem, rfl, rfl⟩

theorem moved (haddressed : q.Addressed object seen) (hok : q.Ok)
    (hmoved : Moved q move next) : next.Addressed object seen where
  items := by
    intro msg hmem
    obtain ⟨old, hold, hmsgId, hpayload⟩ := exists_item hok hmoved hmem
    rw [← hmsgId, ← hpayload]
    exact haddressed.items old hold
  subscribers := by
    cases hmoved <;> exact haddressed.subscribers
  sending := by
    intro policyByName msg hsending name policy hpolicy
    cases hmoved with
    | sent hworker hsome =>
        cases hsending
        exact haddressed.subscribers name policy (QueueMsg.lookup_policyByName.mp hpolicy).1
    | idled | popped | dropped | retained | finished | requeued | woken | exited =>
        contradiction

theorem posted (haddressed : q.Addressed object seen) {place : Nat} {msgId payload : GoString}
    {policy : SubPolicy} {ok : Bool}
    (hposted : .posted place msgId payload policy ok ∈ q.sights object move) :
    place = object ∧ .accepted object msgId payload ∈ seen ∧
      .subscribed object policy ∈ seen := by
  cases move with
  | deliver order reply =>
      simp only [Queue.sights] at hposted
      split at hposted
      next policyByName msg hworker =>
          rcases List.mem_append.mp hposted with hmem | hmem
          · obtain ⟨⟨name, found⟩, hentry, heq⟩ := List.mem_map.mp hmem
            cases heq
            have hpolicy := (order.enumerates policyByName).lookup_of_mem hentry
            refine ⟨rfl, haddressed.items msg ?_, haddressed.sending hworker name found hpolicy⟩
            simp [Queue.items, hworker, WorkerPhase.hand]
          · split at hmem <;> simp at hmem
      next => simp at hposted
  | read =>
      simp only [Queue.sights] at hposted
      split at hposted
      next => split_ifs at hposted <;> simp at hposted
      next => simp at hposted
  | pop | requeue | wake | exit => simp [Queue.sights] at hposted

end Queue.Addressed

/-- Posts go to subscribers of the object that the message was published to, with the
body it was published with. -/
structure Routed (b : Broker) (seen : List Sight) : Prop where
  sound : b.Sound
  addressed : ∀ {object : Nat} {q : Queue}, b.objects[object]? = some q →
    q.Addressed object seen
  posts : ∀ {object msgId payload policy ok}, .posted object msgId payload policy ok ∈ seen →
    .accepted object msgId payload ∈ seen ∧ .subscribed object policy ∈ seen

namespace Routed

variable {b next : Broker} {seen : List Sight}

theorem initial : Routed {} [] where
  sound := Broker.Sound.initial
  addressed := by simp
  posts := by simp

theorem change (hrouted : Routed b seen) {later : List Sight} (hsound : next.Sound)
    (haddressed : ∀ {object : Nat} {q : Queue}, next.objects[object]? = some q →
      b.objects[object]? = some q ∨ q.Addressed object (seen ++ later))
    (hquiet : ∀ object msgId payload policy ok,
      .posted object msgId payload policy ok ∉ later) : Routed next (seen ++ later) where
  sound := hsound
  addressed := by
    intro object q hobject
    rcases haddressed hobject with hold | hnew
    · exact (hrouted.addressed hold).append later
    · exact hnew
  posts := by
    intro object msgId payload policy ok hmem
    rcases List.mem_append.mp hmem with hold | hnew
    · obtain ⟨haccepted, hsubscribed⟩ := hrouted.posts hold
      exact ⟨List.mem_append_left _ haccepted, List.mem_append_left _ hsubscribed⟩
    · exact absurd hnew (hquiet _ _ _ _ _)

theorem objects_set {objects : List Queue} {object place : Nat} {q found : Queue}
    (hset : (objects.set object q)[place]? = some found) :
    objects[place]? = some found ∨ (place = object ∧ found = q) := by
  rw [List.getElem?_set] at hset
  split_ifs at hset with heq hlt
  · cases hset
    exact .inr ⟨heq.symm, rfl⟩
  · exact .inl hset

theorem step (hrouted : Routed b seen) {event : BrokerEvent}
    (hstep : b.step event = some next) : Routed next (seen ++ b.sights event) := by
  have hsound := hrouted.sound.step hstep
  cases stepped_of_step hstep with
  | refused hquiet =>
      rw [hquiet]
      exact hrouted.change hsound .inl (by simp)
  | registered habsent hroom =>
      refine hrouted.change hsound (fun {object q} hobject => ?_) (by simp [Broker.sights])
      rw [List.getElem?_append] at hobject
      split_ifs at hobject with hlt
      · exact .inl hobject
      · right
        rw [List.mem_singleton.mp (List.mem_of_getElem? hobject)]
        exact ⟨by simp [newQueue, Queue.items, WorkerPhase.hand], by simp [newQueue],
          by simp [newQueue]⟩
  | @unregistered name object q hfound hobject hopen =>
      refine hrouted.change hsound (fun {place other} hplace => ?_) (by simp [Broker.sights])
      rcases objects_set hplace with hold | ⟨rfl, rfl⟩
      · exact .inl hold
      · obtain ⟨hitems, hsubscribers, hsending⟩ := (hrouted.addressed hobject).append _
        exact .inr ⟨hitems, hsubscribers, hsending⟩
  | closedTwice | crashed => exact absurd hsound.calm (by simp)
  | @published name body uuid object q hfound hobject =>
      have hsights : b.sights (.request (.enqueue name (some body) uuid)) =
          [.accepted object (newQueueMsg name body uuid).msgId body] := by
        rw [Broker.sights, getQueue_of_lookup hfound hobject]
      rw [hsights]
      refine hrouted.change hsound (fun {place other} hplace => ?_) (by simp)
      rcases objects_set hplace with hold | ⟨rfl, rfl⟩
      · exact .inl hold
      · obtain ⟨hitems, hsubscribers, hsending⟩ := (hrouted.addressed hobject).append
          [.accepted place (newQueueMsg name body uuid).msgId body]
        refine .inr ⟨fun msg hmem => ?_, hsubscribers, hsending⟩
        simp only [Queue.items, Queue.add, ← List.append_assoc, List.mem_append,
          List.mem_singleton] at hmem
        rcases hmem with hold | rfl
        · exact hitems msg (List.mem_append.mpr hold)
        · exact List.mem_append_right _ List.mem_cons_self
  | @subscribed request name object q metadata hfound hobject hvalid hsights =>
      rw [hsights]
      refine hrouted.change hsound (fun {place other} hplace => ?_) (by simp)
      rcases objects_set hplace with hold | ⟨rfl, rfl⟩
      · exact .inl hold
      · obtain ⟨hitems, hsubscribers, hsending⟩ := (hrouted.addressed hobject).append
          [.subscribed place (initializeDefaultSubMetadataFields metadata)]
        refine .inr ⟨hitems, fun name policy hpolicy => ?_, hsending⟩
        rw [GoMap.lookup_insert_eq] at hpolicy
        split_ifs at hpolicy
        · cases hpolicy
          exact List.mem_append_right _ List.mem_cons_self
        · exact hsubscribers name policy hpolicy
  | @unsubscribed name subName object q hfound hobject =>
      refine hrouted.change hsound (fun {place other} hplace => ?_) (by simp [Broker.sights])
      rcases objects_set hplace with hold | ⟨rfl, rfl⟩
      · exact .inl hold
      · obtain ⟨hitems, hsubscribers, hsending⟩ := (hrouted.addressed hobject).append _
        refine .inr ⟨hitems, fun name policy hpolicy => ?_, hsending⟩
        rw [Queue.removeSubscriber, GoMap.lookup_erase_eq] at hpolicy
        split_ifs at hpolicy
        exact hsubscribers name policy hpolicy
  | @worked object move q after hobject hmoved =>
      have haddressed := hrouted.addressed hobject
      have hok := hrouted.sound.queues_ok q (List.mem_of_getElem? hobject)
      have hsights : b.sights (.work object move) = q.sights object move := by
        rw [Broker.sights, hobject]
      rw [hsights]
      refine ⟨hsound, fun {place other} hplace => ?_, ?_⟩
      · rcases objects_set hplace with hold | ⟨rfl, rfl⟩
        · exact (hrouted.addressed hold).append _
        · exact (haddressed.moved hok hmoved).append _
      · intro place msgId payload policy ok hmem
        rcases List.mem_append.mp hmem with hold | hnew
        · obtain ⟨haccepted, hsubscribed⟩ := hrouted.posts hold
          exact ⟨List.mem_append_left _ haccepted, List.mem_append_left _ hsubscribed⟩
        · obtain ⟨rfl, haccepted, hsubscribed⟩ := haddressed.posted hnew
          exact ⟨List.mem_append_left _ haccepted, List.mem_append_left _ hsubscribed⟩

end Routed

/-- A post carries the body of the publish, and goes to a policy that was put under the
very object the message was published to, whatever was deleted and made again. -/
theorem posts_are_addressed {events : List BrokerEvent} {b : Broker}
    (hexec : exec Broker.step {} events = some b) {object : Nat} {msgId payload : GoString}
    {policy : SubPolicy} {ok : Bool}
    (hposted : .posted object msgId payload policy ok ∈
      trace Broker.step Broker.sights {} events) :
    .accepted object msgId payload ∈ trace Broker.step Broker.sights {} events ∧
      .subscribed object policy ∈ trace Broker.step Broker.sights {} events :=
  (exec_traces (P := Routed) (fun hstate hnext => hstate.step hnext) Routed.initial
    hexec).posts hposted

/-- The post of a worker whose queue was deleted and made again meanwhile. -/
theorem post_after_recreation_is_addressed :
    let seen := trace Broker.step Broker.sights {} recreation
    .posted 0 (lit "q/1") (lit "body") ⟨lit "a", lit "u", 3⟩ false ∈ seen ∧
      .accepted 0 (lit "q/1") (lit "body") ∈ seen ∧
      .subscribed 0 ⟨lit "a", lit "u", 3⟩ ∈ seen := by
  intro seen
  obtain ⟨b, hexec⟩ : ∃ b, exec Broker.step {} recreation = some b :=
    Option.isSome_iff_exists.mp (by decide +kernel)
  have hposted : .posted 0 (lit "q/1") (lit "body") ⟨lit "a", lit "u", 3⟩ false ∈ seen := by
    decide +kernel
  exact ⟨hposted, posts_are_addressed hexec hposted⟩

end SimonMQ.Push
