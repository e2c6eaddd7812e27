import SimonMQ.Dist.Delivery

namespace SimonMQ.Dist.Delivery

open SimonMQ.Go
open SimonMQ.Transition

/-! Acks and leadership.  A worker checks its stop channel and then proposes, and
Raft judges the proposal by the leadership of that moment, so what matters is
whether a new tenure can begin in between. -/

def NoneAcking (state : Delivery) : Prop :=
  ∀ id < state.workerCount, ∀ worker ∈ state.workers id,
    worker.phase.isAcking = false

instance (state : Delivery) : Decidable state.NoneAcking :=
  inferInstanceAs (Decidable (∀ id < state.workerCount, ∀ worker ∈ state.workers id,
    worker.phase.isAcking = false))

/-- Leadership comes back only after the previous tenure was torn down and no worker
is about to propose. -/
def TornDown (state : Delivery) : DeliveryEvent → Prop
  | .gain => state.stopCh = none ∧ state.NoneAcking
  | _ => True

instance (state : Delivery) : ∀ event, Decidable (state.TornDown event)
  | .gain => inferInstanceAs (Decidable (state.stopCh = none ∧ state.NoneAcking))
  | .lose | .replicate _ | .receive | .checkLeader | .tearDown | .barrier _
  | .openTenure _ | .stop | .fetch _ _ | .tick _ | .feeder _ _ | .worker _ _ =>
      isTrue trivial

/-- Workers that can still pass a stop check, or just did, belong to the current
tenure. -/
structure Tenured (state : Delivery) : Prop where
  channel : ∀ stopCh, state.stopCh = some stopCh → stopCh < state.channels
  made : ∀ id worker, state.workers id = some worker →
    id < state.workerCount ∧ worker.stopCh < state.channels
  running : ∀ id worker, state.workers id = some worker →
    state.stopCh = some worker.stopCh → worker.tenure = state.tenure
  acking : ∀ id worker, state.workers id = some worker →
    worker.phase.isAcking = true → worker.tenure = state.tenure
  acks : ∀ ack ∈ state.acks, ack.afterLoss = false

theorem tenured_initial : initial.Tenured where
  channel := fun _ hstopCh => by cases hstopCh
  made := fun _ _ hworker => by cases hworker
  running := fun _ _ hworker => by cases hworker
  acking := fun _ _ hworker => by cases hworker
  acks := fun _ hmem => absurd hmem List.not_mem_nil

theorem Tenured.setWorker {state : Delivery} (htenured : state.Tenured) {id : Nat}
    {worker : Worker} (hmade : id < state.workerCount ∧ worker.stopCh < state.channels)
    (hrunning : state.stopCh = some worker.stopCh → worker.tenure = state.tenure)
    (hacking : worker.phase.isAcking = true → worker.tenure = state.tenure) :
    (state.setWorker id worker).Tenured where
  channel := htenured.channel
  made := by
    intro other found hfound
    rcases found_of_setWorker hfound with ⟨rfl, rfl⟩ | ⟨_, hfound⟩
    · exact hmade
    · exact htenured.made other found hfound
  running := by
    intro other found hfound
    rcases found_of_setWorker hfound with ⟨rfl, rfl⟩ | ⟨_, hfound⟩
    · exact hrunning
    · exact htenured.running other found hfound
  acking := by
    intro other found hfound
    rcases found_of_setWorker hfound with ⟨rfl, rfl⟩ | ⟨_, hfound⟩
    · exact hacking
    · exact htenured.acking other found hfound
  acks := htenured.acks

theorem Tenured.move {state : Delivery} (htenured : state.Tenured) {id : Nat}
    {worker : Worker} (hworker : state.workers id = some worker)
    (buffer : List QueueMsg) {phase : WorkerPhase}
    (hphase : phase.isAcking = false) :
    (state.setWorker id { worker with buffer, phase }).Tenured := by
  refine htenured.setWorker (htenured.made id worker hworker)
    (htenured.running id worker hworker) fun hacking => ?_
  rw [hphase] at hacking
  contradiction

theorem Tenured.of_workerStep {state next : Delivery} (htenured : state.Tenured)
    {id : Nat} {worker : Worker} (hworker : state.workers id = some worker)
    {action : WorkerAction} (hstep : WorkerStep state id worker action next) :
    next.Tenured := by
  cases hstep with
  | propose hphase hrunning =>
      have hopen : state.stopCh = some worker.stopCh := by
        simpa [stopped] using hrunning
      exact htenured.setWorker (htenured.made id worker hworker)
        (htenured.running id worker hworker)
        fun _ => htenured.running id worker hworker hopen
  | @accept msg finished hphase hleading =>
      have htenure := htenured.acking id worker hworker (by rw [hphase]; rfl)
      have haccepted : (state.accept worker msg finished).Tenured :=
        { htenured with
          acks := by
            intro ack hmem
            rcases List.mem_append.mp hmem with hmem | hmem
            · exact htenured.acks ack hmem
            · rw [List.mem_singleton.mp hmem]
              simp [isLost, htenure, hleading] }
      exact haccepted.move hworker _ rfl
  | @result msg _ _ subName _ ok hphase hpending hfirst =>
      cases ok with
      | false => exact htenured.move hworker _ rfl
      | true =>
          have hdelivered : (state.deliver msg.msgID subName).Tenured := { htenured with }
          exact hdelivered.move hworker _ rfl
  | @drop msg hphase =>
      have hforgotten : (state.forget msg.msgID).Tenured := { htenured with }
      exact hforgotten.move hworker _ rfl
  | @forget msg finished hphase =>
      have hforgotten : (state.forget msg.msgID).Tenured := { htenured with }
      exact hforgotten.move hworker _ rfl
  | _ => exact htenured.move hworker _ rfl

theorem Tenured.schedule {state : Delivery} (htenured : state.Tenured)
    (queueName : GoString) (msg : MessageInfo) :
    (state.schedule queueName msg).Tenured := by
  have hmarked : ({ state with
      inFlightMsgs := insert msg.msgID state.inFlightMsgs } : Delivery).Tenured :=
    { htenured with }
  have hscheduled := scheduled_schedule state queueName msg
  generalize state.schedule queueName msg = next at hscheduled ⊢
  cases hscheduled with
  | dropped => exact htenured
  | missing => exact hmarked
  | @joined _ _ id worker _ hworker =>
      exact hmarked.setWorker (htenured.made id worker hworker)
        (htenured.running id worker hworker) (htenured.acking id worker hworker)
  | created hfresh hpending hstopCh hqueue =>
      have hgrown : ({ state with
          inFlightMsgs := insert msg.msgID state.inFlightMsgs
          queues := state.queues.insert queueName state.workerCount
          workerCount := state.workerCount + 1 } : Delivery).Tenured :=
        { htenured with
          made := fun id worker hworker =>
            ⟨Nat.lt_succ_of_lt (htenured.made id worker hworker).1,
              (htenured.made id worker hworker).2⟩ }
      exact hgrown.setWorker ⟨Nat.lt_succ_self _, htenured.channel _ hstopCh⟩
        (fun _ => rfl) fun _ => rfl

theorem Tenured.of_feederStep {state next : Delivery} (htenured : state.Tenured)
    {id : Nat} {feeder : Feeder} {action : FeederAction}
    (hstep : FeederStep state id feeder action next) : next.Tenured := by
  cases hstep with
  | refused | commit | readNames | readPending => exact { htenured with }
  | handOver => exact { htenured.schedule _ _ with }
  | sweep => exact { htenured.schedule _ _ with }

theorem Tenured.of_tenureStep {state next : Delivery} (htenured : state.Tenured)
    {event : DeliveryEvent} (htornDown : state.TornDown event)
    (hstep : TenureStep state event next) : next.Tenured := by
  cases hstep with
  | gain hleading =>
      obtain ⟨hclosed, hnone⟩ := htornDown
      exact {
        channel := htenured.channel
        made := htenured.made
        running := fun _ _ _ hopen => by
          rw [hclosed] at hopen
          contradiction
        acking := fun id worker hworker hacking => by
          rw [hnone id (htenured.made id worker hworker).1 worker hworker] at hacking
          contradiction
        acks := htenured.acks }
  | lose | advance => exact { htenured with }
  | demote =>
      exact { htenured with
        channel := fun _ hstopCh => by cases hstopCh
        running := fun _ _ _ hopen => by cases hopen }
  | openTenure hfree =>
      exact { htenured with
        channel := fun stopCh hstopCh => by
          cases hstopCh
          exact Nat.lt_succ_self _
        made := fun id worker hworker =>
          ⟨(htenured.made id worker hworker).1,
            Nat.lt_succ_of_lt (htenured.made id worker hworker).2⟩
        running := fun id worker hworker hopen => by
          have hmade := (htenured.made id worker hworker).2
          have hfresh : state.channels = worker.stopCh := Option.some.inj hopen
          omega }

theorem Tenured.of_stepped {state next : Delivery} (htenured : state.Tenured)
    {event : DeliveryEvent} (htornDown : state.TornDown event)
    (hstep : Stepped state event next) : next.Tenured := by
  cases hstep with
  | tenure _ hstep => exact htenured.of_tenureStep htornDown hstep
  | replicate | fetch | tick => exact { htenured with }
  | feeder hfeeder hstep => exact htenured.of_feederStep hstep
  | worker hworker hstep => exact htenured.of_workerStep hworker hstep

/-- If leadership only ever comes back after the previous tenure was torn down and
while no worker is about to propose, every accepted ack belongs to the tenure that
still holds. -/
theorem no_ack_after_loss {events : List DeliveryEvent} {state : Delivery}
    (htornDown : Meets step TornDown initial events)
    (hexec : exec step initial events = some state) :
    ∀ ack ∈ state.acks, ack.afterLoss = false := by
  have htenured : state.Tenured :=
    exec_invariant
      (fun htenured htornDown hstep =>
        Tenured.of_stepped htenured htornDown (stepped_of_step hstep))
      tenured_initial htornDown hexec
  exact htenured.acks

/-! One message whose only delivery attempt fails, so that its worker gives up on
the subscriber. -/

/-- The node is promoted, takes a publish and schedules it. -/
def promoted : List DeliveryEvent :=
  [.replicate (.newCreateQueue (lit "orders")),
    .replicate (.newPutSubPolicy (lit "orders") (billingPolicy 1)),
    .gain, .receive, .checkLeader, .tearDown, .barrier true, .openTenure 0,
    .fetch 1 (lit "orders"),
    .feeder 1 (.commit (lit "orders-1") (lit "order 1")), .feeder 1 .schedule]

def givesUp : List DeliveryEvent :=
  [.worker 0 .checkRun, .worker 0 .pop, .worker 0 (.result (lit "billing") false),
    .worker 0 .collect, .worker 0 .checkProcess]

/-- The decision is recorded, leadership is lost and torn down, and won again. -/
def settlesInTime : List DeliveryEvent :=
  [.worker 0 (.ack true), .worker 0 .finish, .lose, .receive, .gain]

/-- Leadership is lost and won again between the stop check and the proposal, so the
decision of the old tenure to give up enters the log of the new one. -/
theorem ack_crosses_reelection :
    (exec step initial
      (promoted ++ givesUp ++ [.lose, .gain, .worker 0 (.ack true)])).map acks =
        some [{ tenure := 1, afterLoss := true }] := by
  decide +kernel

theorem ack_before_reelection :
    ∃ state, exec step initial (promoted ++ givesUp ++ settlesInTime) = some state ∧
      state.acks.length = 1 ∧ ∀ ack ∈ state.acks, ack.afterLoss = false := by
  have hacks : (exec step initial (promoted ++ givesUp ++ settlesInTime)).map
      (fun state => state.acks.length) = some 1 := by
    decide +kernel
  obtain ⟨state, hexec, hlength⟩ := Option.map_eq_some_iff.mp hacks
  exact ⟨state, hexec, hlength, no_ack_after_loss (by decide +kernel) hexec⟩

end SimonMQ.Dist.Delivery
