import SimonMQ.Dist.Tenure

namespace SimonMQ.Dist.Delivery

open SimonMQ.Go
open SimonMQ.Transition

/-! The dedupe set and the work it stands for.  A message id enters the set together
with a message for a registered queue, and a worker lets go of a message only after it
has forgotten the id or when its tenure is over. -/

/-- What can happen around the manager: the steps of the node, and calls of `Schedule`
with any message. -/
inductive ManagerEvent
  | node (event : DeliveryEvent)
  | schedule (queueName : GoString) (msg : MessageInfo)

def managerStep (state : Delivery) : ManagerEvent → Option Delivery
  | .node event => state.step event
  | .schedule queueName msg => some (state.schedule queueName msg)

/-- Somebody works on the message: it is in the hands of the worker of a registered
queue or in its buffer, and that worker belongs to the current tenure and runs. -/
def Attends (state : Delivery) (msgID : GoString) : Prop :=
  ∃ queueName id worker, state.queues.lookup queueName = some id ∧
    state.workers id = some worker ∧ state.stopCh = some worker.stopCh ∧
    worker.phase ≠ .returned ∧ msgID ∈ worker.ids

structure Attended (state : Delivery) : Prop where
  bounded : ∀ id worker, state.workers id = some worker → id < state.workerCount
  registered : ∀ queueName id, state.queues.lookup queueName = some id →
    ∃ worker, state.workers id = some worker ∧ state.stopCh = some worker.stopCh ∧
      worker.phase ≠ .returned
  attends : ∀ msgID ∈ state.inFlightMsgs, state.Attends msgID
  /-- between the teardown and the opening of a promotion nothing runs -/
  closed : (∃ attempt, state.runPhase = .barrier attempt) ∨ state.runPhase = .opening →
    state.stopCh = none

theorem attended_initial : initial.Attended where
  bounded := fun _ _ hworker => by cases hworker
  registered := fun _ _ hqueue => by simp [initial] at hqueue
  attends := fun _ hmem => absurd hmem (Finset.notMem_empty _)
  closed := fun _ => rfl

namespace Attended

variable {state next : Delivery}

theorem lookup_of_closed (hattended : state.Attended) (hclosed : state.stopCh = none)
    (queueName : GoString) : state.queues.lookup queueName = none := by
  cases hqueue : state.queues.lookup queueName with
  | none => rfl
  | some id =>
      obtain ⟨worker, _, hopen, _⟩ := hattended.registered queueName id hqueue
      rw [hclosed] at hopen
      contradiction

theorem not_mem_of_closed (hattended : state.Attended) (hclosed : state.stopCh = none)
    (msgID : GoString) : msgID ∉ state.inFlightMsgs := by
  intro hmem
  obtain ⟨_, _, _, _, _, hopen, _⟩ := hattended.attends msgID hmem
  rw [hclosed] at hopen
  contradiction

theorem demote (hattended : state.Attended) (signal : Option Bool) (runPhase : RunPhase) :
    ({ state.demote with signal, runPhase } : Delivery).Attended where
  bounded := hattended.bounded
  registered := fun _ _ hqueue => by simp [Delivery.demote] at hqueue
  attends := fun _ hmem => absurd hmem (Finset.notMem_empty _)
  closed := fun _ => rfl

/-- A worker of the current tenure keeps the entries that stay, and one of an earlier
tenure may do anything. -/
theorem setWorker (hattended : state.Attended) {id : Nat} {worker new : Worker}
    (hworker : state.workers id = some worker) (hstopCh : new.stopCh = worker.stopCh)
    (hkept : state.stopCh = some worker.stopCh →
      new.phase ≠ .returned ∧
        ∀ msgID ∈ state.inFlightMsgs, msgID ∈ worker.ids → msgID ∈ new.ids) :
    (state.setWorker id new).Attended where
  bounded := by
    intro other found hfound
    rcases found_of_setWorker hfound with ⟨rfl, _⟩ | ⟨_, hfound⟩
    · exact hattended.bounded other worker hworker
    · exact hattended.bounded other found hfound
  registered := by
    intro queueName other hqueue
    obtain ⟨found, hfound, hopen, hphase⟩ := hattended.registered queueName other hqueue
    by_cases hother : other = id
    · subst hother
      rw [hworker] at hfound
      cases hfound
      exact ⟨new, Function.update_self .., hopen.trans (hstopCh ▸ rfl), (hkept hopen).1⟩
    · exact ⟨found, (Function.update_of_ne hother ..).trans hfound, hopen, hphase⟩
  attends := by
    intro msgID hmem
    obtain ⟨queueName, other, found, hqueue, hfound, hopen, hphase, hids⟩ :=
      hattended.attends msgID hmem
    by_cases hother : other = id
    · subst hother
      rw [hworker] at hfound
      cases hfound
      exact ⟨queueName, other, new, hqueue, Function.update_self ..,
        hopen.trans (hstopCh ▸ rfl), (hkept hopen).1, (hkept hopen).2 msgID hmem hids⟩
    · exact ⟨queueName, other, found, hqueue, (Function.update_of_ne hother ..).trans hfound,
        hopen, hphase, hids⟩
  closed := hattended.closed

theorem forget (hattended : state.Attended) (msgID : GoString) :
    (state.forget msgID).Attended :=
  { hattended with
    attends := fun other hmem => hattended.attends other (Finset.mem_of_mem_erase hmem) }

theorem goesOn (hattended : state.Attended) {id : Nat} {worker new : Worker}
    (hworker : state.workers id = some worker) (hstopCh : new.stopCh = worker.stopCh)
    (hphase : new.phase ≠ .returned) (hids : worker.ids ⊆ new.ids) :
    (state.setWorker id new).Attended :=
  hattended.setWorker hworker hstopCh fun _ => ⟨hphase, fun _ _ hmem => hids hmem⟩

theorem letsGo (hattended : state.Attended) {id : Nat} {worker : Worker}
    (hworker : state.workers id = some worker) {msg : QueueMsg}
    (hmsg : worker.phase.msg? = some msg) :
    ((state.forget msg.msgID).setWorker id { worker with phase := .starting }).Attended := by
  refine (hattended.forget msg.msgID).setWorker hworker rfl fun _ => ⟨by simp, ?_⟩
  intro msgID hmem hids
  have hother : msgID ≠ msg.msgID := Finset.ne_of_mem_erase hmem
  rw [Worker.ids, items_of_phase hmsg, List.map_cons, List.mem_cons] at hids
  rw [Worker.ids, items_of_idle rfl]
  exact hids.resolve_left hother

theorem of_workerStep (hattended : state.Attended) {id : Nat} {worker : Worker}
    (hworker : state.workers id = some worker) {action : WorkerAction}
    (hstep : WorkerStep state id worker action next) : next.Attended := by
  cases hstep with
  | exit hphase hstopped =>
      exact hattended.setWorker hworker rfl fun hopen => absurd hopen (by
        simpa [stopped] using hstopped)
  | discard hphase hstopped =>
      exact hattended.setWorker hworker rfl fun hopen => absurd hopen (by
        simpa [stopped] using hstopped)
  | drop hphase => exact hattended.letsGo hworker (by rw [hphase]; rfl)
  | @forget msg finished hphase =>
      have hmsg : worker.phase.msg? = some msg := by rw [hphase]; rfl
      -- Marking the acks leaves the id alone.
      change ((state.forget msg.msgID).setWorker id
        { worker with phase := .starting }).Attended
      exact hattended.letsGo hworker hmsg
  | @result msg answered results subName policy ok hphase hpending hfirst =>
      have hdelivered :
          (if ok then state.deliver msg.msgID subName else state).Attended := by
        cases ok
        · exact hattended
        · exact { hattended with }
      have hsame : (if ok then state.deliver msg.msgID subName else state).workers id =
          some worker := by
        cases ok <;> exact hworker
      refine hdelivered.goesOn hsame rfl (by simp) ?_
      simp [Worker.ids, Worker.items, hphase, WorkerPhase.msg?]
  | @accept msg finished hphase hleading =>
      have haccepted : (state.accept worker msg finished).Attended := { hattended with }
      refine haccepted.goesOn hworker rfl (by simp) ?_
      simp [Worker.ids, Worker.items, hphase, WorkerPhase.msg?]
  | _ =>
      refine hattended.goesOn hworker rfl (by simp) ?_
      simp_all [Worker.ids, Worker.items, WorkerPhase.msg?, QueueMsg.collect,
        QueueMsg.markAcked]

theorem schedule (hattended : state.Attended) (queueName : GoString) (msg : MessageInfo) :
    (state.schedule queueName msg).Attended := by
  have hscheduled := scheduled_schedule state queueName msg
  generalize state.schedule queueName msg = next at hscheduled ⊢
  cases hscheduled with
  | dropped => exact hattended
  | @missing _ _ id hqueue hnone =>
      obtain ⟨worker, hworker, _⟩ := hattended.registered queueName id hqueue
      rw [hnone] at hworker
      contradiction
  | @joined _ _ id worker hqueue hworker =>
      have hids : worker.ids ⊆
          ({ worker with buffer := worker.buffer ++ [newQueueMsg msg] } : Worker).ids := by
        rw [Worker.ids_enqueue]
        exact List.subset_append_left _ _
      obtain ⟨found, hfound, hopen, hphase⟩ := hattended.registered queueName id hqueue
      rw [hworker] at hfound
      cases hfound
      have hjoined : (state.setWorker id
          { worker with buffer := worker.buffer ++ [newQueueMsg msg] }).Attended :=
        hattended.goesOn hworker rfl hphase hids
      refine { hjoined with attends := fun msgID hmem => ?_ }
      rcases Finset.mem_insert.mp hmem with rfl | hold
      · refine ⟨queueName, id, _, hqueue, Function.update_self .., hopen, hphase, ?_⟩
        simp [Worker.ids, Worker.items, newQueueMsg]
      · exact hjoined.attends msgID hold
  | @created _ _ stopCh hstopCh hqueue =>
      have hnew : ∀ {id worker}, state.workers id = some worker → id ≠ state.workerCount :=
        fun hworker => Nat.ne_of_lt (hattended.bounded _ _ hworker)
      have hother : ∀ {other id}, state.queues.lookup other = some id →
          (state.queues.insert queueName state.workerCount).lookup other = some id := by
        intro other id hfound
        rw [GoMap.lookup_insert_eq, if_neg]
        · exact hfound
        · rintro rfl
          rw [hqueue] at hfound
          contradiction
      refine ⟨?_, ?_, ?_, hattended.closed⟩
      · intro id worker hworker
        rcases found_of_setWorker hworker with ⟨rfl, _⟩ | ⟨_, hworker⟩
        · exact Nat.lt_succ_self _
        · exact Nat.lt_succ_of_lt (hattended.bounded id worker hworker)
      · intro other id hfound
        change (state.queues.insert queueName state.workerCount).lookup other = some id at hfound
        rw [GoMap.lookup_insert_eq] at hfound
        split_ifs at hfound
        · cases hfound
          exact ⟨_, Function.update_self .., hstopCh, by simp⟩
        · obtain ⟨worker, hworker, hopen, hphase⟩ := hattended.registered other id hfound
          exact ⟨worker, (Function.update_of_ne (hnew hworker) ..).trans hworker, hopen, hphase⟩
      · intro msgID hmem
        rcases Finset.mem_insert.mp hmem with rfl | hold
        · refine ⟨queueName, state.workerCount, _, Finmap.lookup_insert _,
            Function.update_self .., hstopCh, by simp, ?_⟩
          simp [Worker.ids, Worker.items, newQueueMsg, WorkerPhase.msg?]
        · obtain ⟨other, id, worker, hfound, hworker, hrest⟩ := hattended.attends msgID hold
          exact ⟨other, id, worker, hother hfound,
            (Function.update_of_ne (hnew hworker) ..).trans hworker, hrest⟩

theorem of_feederStep (hattended : state.Attended) {id : Nat} {feeder : Feeder}
    {action : FeederAction} (hstep : FeederStep state id feeder action next) :
    next.Attended := by
  cases hstep with
  | refused | commit | readNames | readPending => exact { hattended with }
  | handOver => exact { hattended.schedule _ _ with }
  | sweep => exact { hattended.schedule _ _ with }

/-- The manager opens a tenure only after the previous one was torn down. -/
theorem of_stepRun (hattended : state.Attended) {event : DeliveryEvent}
    (hstep : state.stepRun event = some next) : next.Attended := by
  unfold stepRun at hstep
  split at hstep
  · split at hstep
    · cases hstep
      exact { hattended with closed := by simp }
    · cases hstep
      exact hattended.demote _ _
    · contradiction
  · split at hstep
    · split_ifs at hstep
      · cases hstep
        exact { hattended with closed := by simp }
      · cases hstep
        exact { hattended with closed := by simp }
    · contradiction
  · split at hstep
    · cases hstep
      exact hattended.demote _ _
    · contradiction
  · split at hstep
    · rename_i attempt hphase
      have hclosed := hattended.closed (.inl ⟨attempt, hphase⟩)
      split_ifs at hstep
      all_goals
        cases hstep
        exact { hattended with closed := fun _ => hclosed }
    · contradiction
  · split at hstep
    · rename_i hphase _
      have hclosed := hattended.closed (.inr hphase)
      cases hstep
      exact {
        bounded := hattended.bounded
        registered := fun queueName id hqueue => by
          change state.queues.lookup queueName = some id at hqueue
          rw [hattended.lookup_of_closed hclosed] at hqueue
          contradiction
        attends := fun msgID hmem =>
          absurd hmem (hattended.not_mem_of_closed hclosed msgID)
        closed := by simp [Delivery.setFeeder] }
    · contradiction
  · contradiction

theorem step (hattended : state.Attended) {event : DeliveryEvent}
    (hstep : state.step event = some next) : next.Attended := by
  cases event with
  | gain | lose =>
      simp only [Delivery.step] at hstep
      split_ifs at hstep
      cases hstep
      exact { hattended with }
  | replicate cmd =>
      cases hstep
      exact { hattended with }
  | receive | checkLeader | tearDown | barrier | openTenure =>
      simp only [Delivery.step] at hstep
      exact hattended.of_stepRun hstep
  | stop =>
      cases hstep
      exact hattended.demote _ _
  | fetch id queueName =>
      simp only [Delivery.step] at hstep
      split at hstep
      · cases hstep
        exact { hattended with }
      · contradiction
  | tick id =>
      simp only [Delivery.step] at hstep
      split at hstep
      · cases hstep
        exact { hattended with }
      · contradiction
  | feeder id action =>
      simp only [Delivery.step] at hstep
      split at hstep
      · contradiction
      · exact hattended.of_feederStep (feederStep_of_stepFeeder hstep)
  | worker id action =>
      simp only [Delivery.step] at hstep
      split at hstep
      · contradiction
      · exact hattended.of_workerStep ‹_› (workerStep_of_stepWorker hstep)

theorem managerStep (hattended : state.Attended) {event : ManagerEvent}
    (hstep : state.managerStep event = some next) : next.Attended := by
  cases event with
  | node event => exact hattended.step hstep
  | schedule queueName msg =>
      cases hstep
      exact hattended.schedule queueName msg

end Attended

/-- Wherever any run leads, every id in the dedupe set belongs to a message that a
running worker of the current tenure has in its hands or in the buffer of its
registered queue. -/
theorem dedupe_entries_are_attended {events : List ManagerEvent} {state : Delivery}
    (hexec : exec managerStep initial events = some state) :
    ∀ msgID ∈ state.inFlightMsgs, state.Attends msgID :=
  have hattended : state.Attended :=
    exec_preserves (fun hattended hstep => hattended.managerStep hstep) attended_initial
      hexec
  hattended.attends

/-- The next tenure sweeps the store while the worker of the last one still has the
message and puts it back into its own, abandoned buffer. -/
def sweptAgain : List DeliveryEvent :=
  [.lose, .receive, .gain, .receive, .checkLeader, .tearDown, .barrier true, .openTenure 2,
    .feeder 2 .readNames, .feeder 2 .readPending, .feeder 2 .schedule,
    .worker 0 (.ack false), .worker 0 .requeue]

theorem swept_message_is_attended :
    ∃ state,
      exec managerStep initial ((promoted ++ givesUp ++ sweptAgain).map .node) = some state ∧
        lit "orders-1" ∈ state.inFlightMsgs ∧ state.Attends (lit "orders-1") := by
  have hmarked : (exec managerStep initial
      ((promoted ++ givesUp ++ sweptAgain).map .node)).map
        (fun state => decide (lit "orders-1" ∈ state.inFlightMsgs)) = some true := by
    decide +kernel
  obtain ⟨state, hexec, hmem⟩ := Option.map_eq_some_iff.mp hmarked
  have hinFlight := of_decide_eq_true hmem
  exact ⟨state, hexec, hinFlight, dedupe_entries_are_attended hexec _ hinFlight⟩

end SimonMQ.Dist.Delivery
