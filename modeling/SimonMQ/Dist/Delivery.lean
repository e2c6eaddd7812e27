import Mathlib.Logic.Function.Basic
import SimonMQ.Dist.Fsm
import SimonMQ.Transition

namespace SimonMQ.Dist

open SimonMQ.Go

/-! The leader-local delivery layer: a message on its way to its subscribers, the
workers that send it, and the manager that builds and destroys them around
leadership. -/

structure QueueMsg where
  msgID : GoString
  payload : GoString
  subList : GoMap SubPolicy
  ackedSubs : Finset GoString
  retryMap : GoMap Nat

def newQueueMsg (info : MessageInfo) : QueueMsg where
  msgID := info.msgID
  payload := info.payload
  subList := info.subList
  ackedSubs := info.ackedSubs.toFinset
  retryMap := ∅

structure DeliveryResult where
  subName : GoString
  ok : Bool
  deriving DecidableEq, Repr

namespace QueueMsg

def pendingSubs (msg : QueueMsg) : GoMap SubPolicy :=
  msg.subList.retain fun name _ => name ∉ msg.ackedSubs

def done (msg : QueueMsg) : Bool := msg.subList.len ≤ msg.ackedSubs.card

/-- One result of a pass: a success settles its subscriber, and so does the failure
that uses up the retries. -/
def tally (pending : GoMap SubPolicy) (counted : GoMap Nat × List GoString)
    (result : DeliveryResult) : GoMap Nat × List GoString :=
  if result.ok then (counted.1, counted.2 ++ [result.subName])
  else
    let failures := (counted.1.lookup result.subName).getD 0 + 1
    let retryMap := counted.1.insert result.subName failures
    let policy := (pending.lookup result.subName).getD .zero
    if policy.numberOfRetries.toInt ≤ failures then
      (retryMap, counted.2 ++ [result.subName])
    else (retryMap, counted.2)

/-- The message with the pass counted, and the settled subscribers in name order. -/
def collect (msg : QueueMsg) (results : List DeliveryResult) :
    QueueMsg × List GoString :=
  let counted := results.foldl (tally msg.pendingSubs) (msg.retryMap, [])
  ({ msg with retryMap := counted.1 }, sortStrings counted.2)

def markAcked (msg : QueueMsg) (subNames : List GoString) : QueueMsg :=
  { msg with ackedSubs := msg.ackedSubs ∪ subNames.toFinset }

theorem mem_pendingSubs {msg : QueueMsg} {name : GoString} {policy : SubPolicy} :
    msg.pendingSubs.lookup name = some policy ↔
      msg.subList.lookup name = some policy ∧ name ∉ msg.ackedSubs := by
  simp [pendingSubs, GoMap.lookup_retain, Option.filter_eq_some_iff]

theorem len_pendingSubs_eq_zero {msg : QueueMsg} (hempty : msg.pendingSubs.len = 0) :
    ∀ name ∈ msg.subList, name ∈ msg.ackedSubs := by
  intro name hmem
  obtain ⟨policy, hlookup⟩ := Finmap.mem_iff.mp hmem
  by_contra hpending
  have hfound := mem_pendingSubs.mpr ⟨hlookup, hpending⟩
  rw [(GoMap.len_eq_zero_iff _).mp hempty name] at hfound
  contradiction

theorem exists_result_of_mem_tally {pending : GoMap SubPolicy}
    {results : List DeliveryResult} {counted : GoMap Nat × List GoString}
    {name : GoString} (hmem : name ∈ (results.foldl (tally pending) counted).2) :
    name ∈ counted.2 ∨ ∃ result ∈ results, result.subName = name := by
  induction results generalizing counted with
  | nil => exact .inl hmem
  | cons result results ih =>
      rcases ih hmem with hcounted | ⟨later, hlater, hname⟩
      · unfold tally at hcounted
        split_ifs at hcounted
        · rcases List.mem_append.mp hcounted with hold | hnew
          · exact .inl hold
          · exact .inr ⟨result, List.mem_cons_self, (List.mem_singleton.mp hnew).symm⟩
        · dsimp only at hcounted
          split_ifs at hcounted
          · rcases List.mem_append.mp hcounted with hold | hnew
            · exact .inl hold
            · exact .inr ⟨result, List.mem_cons_self, (List.mem_singleton.mp hnew).symm⟩
          · exact .inl hcounted
      · exact .inr ⟨later, List.mem_cons_of_mem _ hlater, hname⟩

theorem mem_tally {pending : GoMap SubPolicy} {counted : GoMap Nat × List GoString}
    (result : DeliveryResult) {name : GoString} (hmem : name ∈ counted.2) :
    name ∈ (tally pending counted result).2 := by
  unfold tally
  split_ifs
  · exact List.mem_append_left _ hmem
  · dsimp only
    split_ifs
    · exact List.mem_append_left _ hmem
    · exact hmem

theorem mem_foldl_tally {pending : GoMap SubPolicy} {results : List DeliveryResult}
    {counted : GoMap Nat × List GoString} {name : GoString}
    (hmem : name ∈ counted.2 ∨ { subName := name, ok := true } ∈ results) :
    name ∈ (results.foldl (tally pending) counted).2 := by
  induction results generalizing counted with
  | nil => exact hmem.elim id fun habsent => absurd habsent List.not_mem_nil
  | cons result results ih =>
      rw [List.foldl_cons]
      apply ih
      rcases hmem with hcounted | hresult
      · exact .inl (mem_tally result hcounted)
      · rcases List.mem_cons.mp hresult with rfl | hlater
        · left
          simp [tally]
        · exact .inr hlater

theorem mem_collect_of_ok {msg : QueueMsg} {results : List DeliveryResult}
    {name : GoString} (hmem : { subName := name, ok := true } ∈ results) :
    name ∈ (msg.collect results).2 := by
  have htally : name ∈
      (results.foldl (tally msg.pendingSubs) (msg.retryMap, [])).2 :=
    mem_foldl_tally (.inr hmem)
  simpa [collect] using htally

theorem exists_result_of_mem_collect {msg : QueueMsg} {results : List DeliveryResult}
    {name : GoString} (hmem : name ∈ (msg.collect results).2) :
    ∃ result ∈ results, result.subName = name := by
  have htally : name ∈
      (results.foldl (tally msg.pendingSubs) (msg.retryMap, [])).2 := by
    simpa [collect] using hmem
  exact (exists_result_of_mem_tally htally).elim
    (fun habsent => absurd habsent List.not_mem_nil) id

end QueueMsg

/-- Where a worker stands between two actions that others can see. -/
inductive WorkerPhase
  | starting
  | popping
  | waiting
  | dropping (msg : QueueMsg)
  | sending (msg : QueueMsg) (answered : Finset GoString)
      (results : List DeliveryResult)
  | collected (msg : QueueMsg) (finished : List GoString)
  | acking (msg : QueueMsg) (finished : List GoString)
  | acked (msg : QueueMsg) (finished : List GoString)
  | rejected (msg : QueueMsg)
  | returned

/-- The worker has passed the stop check and not yet proposed. -/
def WorkerPhase.isAcking : WorkerPhase → Bool
  | acking _ _ => true
  | _ => false

def WorkerPhase.msg? : WorkerPhase → Option QueueMsg
  | dropping msg | sending msg _ _ | collected msg _ | acking msg _ | acked msg _
  | rejected msg => some msg
  | starting | popping | waiting | returned => none

/-- A queue and the one worker that drains it.  `tenure` is the leadership tenure
the worker was created in. -/
structure Worker where
  queueName : GoString
  stopCh : Nat
  tenure : Nat
  buffer : List QueueMsg
  phase : WorkerPhase

def Worker.items (worker : Worker) : List QueueMsg :=
  worker.phase.msg?.toList ++ worker.buffer

def Worker.ids (worker : Worker) : List GoString := worker.items.map QueueMsg.msgID

theorem Worker.items_enqueue (worker : Worker) (msg : QueueMsg) :
    Worker.items { worker with buffer := worker.buffer ++ [msg] } =
      worker.items ++ [msg] := by
  simp [Worker.items]

theorem Worker.ids_enqueue (worker : Worker) (msg : QueueMsg) :
    Worker.ids { worker with buffer := worker.buffer ++ [msg] } =
      worker.ids ++ [msg.msgID] := by
  rw [Worker.ids, Worker.items_enqueue, List.map_append]
  rfl

/-- A goroutine that brings messages to `Schedule`: a publish handler after it read
the subscriber list or after its commit, or a sweep with the messages it has read
and the queues it has not. -/
inductive Feeder
  | fetched (queueName : GoString) (subList : GoMap SubPolicy)
  | committed (queueName : GoString) (msg : MessageInfo)
  | starting
  | sweeping (queueName : GoString) (msgs : List MessageInfo)
      (queueNames : List GoString)

inductive RunPhase
  | waiting
  | promoting (attempt : Nat)
  | tearingDown (attempt : Nat)
  | barrier (attempt : Nat)
  | opening
  deriving DecidableEq, Repr

/-- An `Ack` command that Raft accepted: the tenure its worker was created in, and
whether that tenure was over by then. -/
structure AcceptedAck where
  tenure : Nat
  afterLoss : Bool
  deriving DecidableEq, Repr

structure Delivery where
  store : InMemoryStorage
  leading : Bool
  tenure : Nat
  signal : Option Bool
  runPhase : RunPhase
  stopCh : Option Nat
  channels : Nat
  queues : GoMap Nat
  inFlightMsgs : Finset GoString
  workers : Nat → Option Worker
  workerCount : Nat
  feeders : Nat → Option Feeder
  /-- The message ids handed out so far. -/
  used : Finset GoString
  /-- The successful deliveries of a message to a subscriber. -/
  delivered : GoString → GoString → Nat
  acks : List AcceptedAck

inductive FeederAction
  | commit (msgID payload : GoString)
  | readNames
  | readPending
  | schedule
  deriving DecidableEq, Repr

inductive WorkerAction
  | checkRun
  | pop
  | wake
  | drop
  | result (subName : GoString) (ok : Bool)
  | collect
  | checkProcess
  | ack (ok : Bool)
  | finish
  | requeue
  deriving DecidableEq, Repr

inductive DeliveryEvent
  -- Raft
  | gain
  | lose
  | replicate (cmd : Command)
  -- Manager.Run and Stop
  | receive
  | checkLeader
  | tearDown
  | barrier (ok : Bool)
  | openTenure (sweep : Nat)
  | stop
  -- publish handlers and sweeps
  | fetch (feeder : Nat) (queueName : GoString)
  | tick (feeder : Nat)
  | feeder (id : Nat) (action : FeederAction)
  | worker (id : Nat) (action : WorkerAction)

def DeliveryEvent.isLeadership : DeliveryEvent → Bool
  | gain | lose | receive | checkLeader | tearDown | barrier _ | openTenure _ | stop => true
  | replicate _ | fetch _ _ | tick _ | feeder _ _ | worker _ _ => false

namespace Delivery

def promoteAttempts : Nat := 4

/-- A tenure is over once leadership was lost, also while no later one has begun. -/
def isLost (state : Delivery) (tenure : Nat) : Bool :=
  tenure < state.tenure || !state.leading

/-- A stop channel is open as long as it is the manager's. -/
def stopped (state : Delivery) (worker : Worker) : Bool :=
  state.stopCh ≠ some worker.stopCh

def setWorker (state : Delivery) (id : Nat) (worker : Worker) : Delivery :=
  { state with workers := Function.update state.workers id (some worker) }

def setFeeder (state : Delivery) (id : Nat) (feeder : Option Feeder) : Delivery :=
  { state with feeders := Function.update state.feeders id feeder }

theorem found_of_setWorker {state : Delivery} {id other : Nat} {new found : Worker}
    (hfound : (state.setWorker id new).workers other = some found) :
    (other = id ∧ found = new) ∨ (other ≠ id ∧ state.workers other = some found) := by
  by_cases hother : other = id
  · subst hother
    simp only [setWorker, Function.update_self, Option.some.injEq] at hfound
    exact .inl ⟨rfl, hfound.symm⟩
  · simp only [setWorker, Function.update_of_ne hother] at hfound
    exact .inr ⟨hother, hfound⟩

def demote (state : Delivery) : Delivery :=
  { state with stopCh := none, queues := ∅, inFlightMsgs := ∅ }

def forget (state : Delivery) (msgID : GoString) : Delivery :=
  { state with inFlightMsgs := state.inFlightMsgs.erase msgID }

/-- `queueFor`: the queue of this name, created with its worker on first use. -/
def queueFor (state : Delivery) (queueName : GoString) (stopCh : Nat) :
    Delivery × Nat :=
  match state.queues.lookup queueName with
  | some id => (state, id)
  | none =>
      let worker : Worker :=
        { queueName, stopCh, tenure := state.tenure, buffer := [], phase := .starting }
      ({ state with
          queues := state.queues.insert queueName state.workerCount
          workers := Function.update state.workers state.workerCount (some worker)
          workerCount := state.workerCount + 1 },
        state.workerCount)

/-- `Queue.Add`. -/
def add (state : Delivery) (id : Nat) (msg : QueueMsg) : Delivery :=
  match state.workers id with
  | none => state
  | some worker => state.setWorker id { worker with buffer := worker.buffer ++ [msg] }

/-- `Schedule`: drops what the node does not lead, what is already scheduled and
what is owed to nobody. -/
def schedule (state : Delivery) (queueName : GoString) (msg : MessageInfo) : Delivery :=
  match state.stopCh with
  | none => state
  | some stopCh =>
      if msg.msgID ∈ state.inFlightMsgs then state
      else if msg.pendingSubs.len = 0 then state
      else
        let marked := { state with inFlightMsgs := insert msg.msgID state.inFlightMsgs }
        let (next, id) := marked.queueFor queueName stopCh
        next.add id (newQueueMsg msg)

def deliver (state : Delivery) (msgID subName : GoString) : Delivery :=
  { state with
    delivered := Function.update state.delivered msgID
      (Function.update (state.delivered msgID) subName
        (state.delivered msgID subName + 1)) }

theorem delivered_deliver_of_ne (state : Delivery) {msgID other : GoString}
    (hother : other ≠ msgID) (subName : GoString) :
    (state.deliver msgID subName).delivered other = state.delivered other := by
  simp [deliver, hother]

theorem delivered_deliver (state : Delivery) (msgID subName name : GoString) :
    (state.deliver msgID subName).delivered msgID name =
      if name = subName then state.delivered msgID subName + 1
      else state.delivered msgID name := by
  simp [deliver, Function.update_apply]

def accept (state : Delivery) (worker : Worker) (msg : QueueMsg)
    (finished : List GoString) : Delivery :=
  { state with
    store := state.store.ack worker.queueName msg.msgID finished
    acks := state.acks ++
      [{ tenure := worker.tenure, afterLoss := state.isLost worker.tenure }] }

/-- A handler's or a sweep's next step towards `Schedule`. -/
def stepFeeder (state : Delivery) (id : Nat) : Feeder → FeederAction → Option Delivery
  | .fetched queueName subList, .commit msgID payload =>
      if state.leading ∧ msgID ∉ state.used then
        let state := { state with used := insert msgID state.used }
        match state.store.enqueue queueName msgID payload subList with
        | .error _ => some (state.setFeeder id none)
        | .ok (msg, store) =>
            some ({ state with store }.setFeeder id (some (.committed queueName msg)))
      else none
  | .committed queueName msg, .schedule =>
      some ((state.schedule queueName msg).setFeeder id none)
  | .starting, .readNames =>
      some (state.setFeeder id (some (.sweeping [] [] state.store.queueNames)))
  | .sweeping _ [] (queueName :: queueNames), .readPending =>
      let msgs := (state.store.pendingMessages queueName).toOption.getD []
      some (state.setFeeder id (some (.sweeping queueName msgs queueNames)))
  | .sweeping queueName (msg :: msgs) queueNames, .schedule =>
      some ((state.schedule queueName msg).setFeeder id
        (some (.sweeping queueName msgs queueNames)))
  | _, _ => none

/-- A worker's next step in `Run` and `Process`. -/
def stepWorker (state : Delivery) (id : Nat) (worker : Worker) :
    WorkerAction → Option Delivery
  | .checkRun =>
      match worker.phase with
      | .starting =>
          if state.stopped worker then
            some (state.setWorker id { worker with phase := .returned })
          else some (state.setWorker id { worker with phase := .popping })
      | _ => none
  | .pop =>
      match worker.phase, worker.buffer with
      | .popping, [] => some (state.setWorker id { worker with phase := .waiting })
      | .popping, msg :: buffer =>
          if msg.pendingSubs.len = 0 then
            some (state.setWorker id { worker with buffer, phase := .dropping msg })
          else
            some (state.setWorker id { worker with buffer, phase := .sending msg ∅ [] })
      | _, _ => none
  | .wake =>
      match worker.phase with
      | .waiting => some (state.setWorker id { worker with phase := .starting })
      | _ => none
  | .drop =>
      match worker.phase with
      | .dropping msg =>
          some ((state.forget msg.msgID).setWorker id { worker with phase := .starting })
      | _ => none
  | .result subName ok =>
      match worker.phase with
      | .sending msg answered results =>
          match msg.pendingSubs.lookup subName with
          | none => none
          | some policy =>
              if subName ∈ answered then none
              else
                let state := if ok then state.deliver msg.msgID subName else state
                some (state.setWorker id { worker with
                  phase := .sending msg (insert subName answered)
                    (results ++ [{ subName := policy.subName, ok }]) })
      | _ => none
  | .collect =>
      match worker.phase with
      | .sending msg answered results =>
          if msg.pendingSubs.keys ⊆ answered then
            let (msg, finished) := msg.collect results
            some (state.setWorker id { worker with phase := .collected msg finished })
          else none
      | _ => none
  | .checkProcess =>
      match worker.phase with
      | .collected msg finished =>
          if state.stopped worker then
            some (state.setWorker id { worker with phase := .starting })
          else if finished.isEmpty then
            some (state.setWorker id { worker with phase := .acked msg finished })
          else some (state.setWorker id { worker with phase := .acking msg finished })
      | _ => none
  | .ack ok =>
      match worker.phase with
      | .acking msg finished =>
          if state.leading && ok then
            some ((state.accept worker msg finished).setWorker id
              { worker with phase := .acked msg finished })
          else some (state.setWorker id { worker with phase := .rejected msg })
      | _ => none
  | .finish =>
      match worker.phase with
      | .acked msg finished =>
          let msg := msg.markAcked finished
          if msg.done then
            some ((state.forget msg.msgID).setWorker id { worker with phase := .starting })
          else
            some (state.setWorker id
              { worker with buffer := worker.buffer ++ [msg], phase := .starting })
      | _ => none
  | .requeue =>
      match worker.phase with
      | .rejected msg =>
          some (state.setWorker id
            { worker with buffer := worker.buffer ++ [msg], phase := .starting })
      | _ => none

def stepRun (state : Delivery) : DeliveryEvent → Option Delivery
  | .receive =>
      match state.runPhase, state.signal with
      | .waiting, some true =>
          some { state with signal := none, runPhase := .promoting 0 }
      | .waiting, some false => some { state.demote with signal := none }
      | _, _ => none
  | .checkLeader =>
      match state.runPhase with
      | .promoting attempt =>
          if state.leading then some { state with runPhase := .tearingDown attempt }
          else some { state with runPhase := .waiting }
      | _ => none
  | .tearDown =>
      match state.runPhase with
      | .tearingDown attempt => some { state.demote with runPhase := .barrier attempt }
      | _ => none
  | .barrier ok =>
      match state.runPhase with
      | .barrier attempt =>
          if ok then some { state with runPhase := .opening }
          else if promoteAttempts ≤ attempt + 1 then
            some { state with runPhase := .waiting }
          else some { state with runPhase := .promoting (attempt + 1) }
      | _ => none
  | .openTenure sweep =>
      match state.runPhase, state.feeders sweep with
      | .opening, none =>
          some ({ state with
            runPhase := .waiting
            stopCh := some state.channels
            channels := state.channels + 1 }.setFeeder sweep (some .starting))
      | _, _ => none
  | _ => none

def step (state : Delivery) (event : DeliveryEvent) : Option Delivery :=
  match event with
  | .gain =>
      if state.leading then none
      else
        some { state with leading := true, tenure := state.tenure + 1, signal := some true }
  | .lose =>
      if state.leading then some { state with leading := false, signal := some false }
      else none
  | .replicate cmd => some { state with store := (FSM.applyCommand 0 state.store cmd).2 }
  | .receive | .checkLeader | .tearDown | .barrier _ | .openTenure _ =>
      state.stepRun event
  | .stop => some state.demote
  | .fetch id queueName =>
      match state.feeders id, state.store.fetchSubList queueName with
      | none, some subList =>
          some (state.setFeeder id (some (.fetched queueName subList)))
      | _, _ => none
  | .tick id =>
      match state.feeders id with
      | none => some (state.setFeeder id (some .starting))
      | some _ => none
  | .feeder id action =>
      match state.feeders id with
      | none => none
      | some feeder => state.stepFeeder id feeder action
  | .worker id action =>
      match state.workers id with
      | none => none
      | some worker => state.stepWorker id worker action

def initial : Delivery where
  store := .empty
  leading := false
  tenure := 0
  signal := none
  runPhase := .waiting
  stopCh := none
  channels := 0
  queues := ∅
  inFlightMsgs := ∅
  workers _ := none
  workerCount := 0
  feeders _ := none
  used := ∅
  delivered _ _ := 0
  acks := []

/-! What a step can do, branch by branch. -/

inductive WorkerStep (state : Delivery) (id : Nat) (worker : Worker) :
    WorkerAction → Delivery → Prop
  | exit (hphase : worker.phase = .starting) (hstopped : state.stopped worker = true) :
      WorkerStep state id worker .checkRun
        (state.setWorker id { worker with phase := .returned })
  | enter (hphase : worker.phase = .starting) (hrunning : state.stopped worker = false) :
      WorkerStep state id worker .checkRun
        (state.setWorker id { worker with phase := .popping })
  | sleep (hphase : worker.phase = .popping) (hbuffer : worker.buffer = []) :
      WorkerStep state id worker .pop
        (state.setWorker id { worker with phase := .waiting })
  | popSettled {msg : QueueMsg} {buffer : List QueueMsg}
      (hphase : worker.phase = .popping) (hbuffer : worker.buffer = msg :: buffer)
      (hsettled : msg.pendingSubs.len = 0) :
      WorkerStep state id worker .pop
        (state.setWorker id { worker with buffer, phase := .dropping msg })
  | popPending {msg : QueueMsg} {buffer : List QueueMsg}
      (hphase : worker.phase = .popping) (hbuffer : worker.buffer = msg :: buffer) :
      WorkerStep state id worker .pop
        (state.setWorker id { worker with buffer, phase := .sending msg ∅ [] })
  | wake (hphase : worker.phase = .waiting) :
      WorkerStep state id worker .wake
        (state.setWorker id { worker with phase := .starting })
  | drop {msg : QueueMsg} (hphase : worker.phase = .dropping msg) :
      WorkerStep state id worker .drop
        ((state.forget msg.msgID).setWorker id { worker with phase := .starting })
  | result {msg : QueueMsg} {answered : Finset GoString}
      {results : List DeliveryResult} {subName : GoString} {policy : SubPolicy}
      {ok : Bool}
      (hphase : worker.phase = .sending msg answered results)
      (hpending : msg.pendingSubs.lookup subName = some policy)
      (hfirst : subName ∉ answered) :
      WorkerStep state id worker (.result subName ok)
        ((if ok then state.deliver msg.msgID subName else state).setWorker id
          { worker with
            phase := .sending msg (insert subName answered)
              (results ++ [{ subName := policy.subName, ok }]) })
  | collect {msg : QueueMsg} {answered : Finset GoString}
      {results : List DeliveryResult}
      (hphase : worker.phase = .sending msg answered results) :
      WorkerStep state id worker .collect
        (state.setWorker id { worker with
          phase := .collected (msg.collect results).1 (msg.collect results).2 })
  | discard {msg : QueueMsg} {finished : List GoString}
      (hphase : worker.phase = .collected msg finished)
      (hstopped : state.stopped worker = true) :
      WorkerStep state id worker .checkProcess
        (state.setWorker id { worker with phase := .starting })
  | unsettled {msg : QueueMsg} {finished : List GoString}
      (hphase : worker.phase = .collected msg finished)
      (hempty : finished = []) :
      WorkerStep state id worker .checkProcess
        (state.setWorker id { worker with phase := .acked msg finished })
  | propose {msg : QueueMsg} {finished : List GoString}
      (hphase : worker.phase = .collected msg finished)
      (hrunning : state.stopped worker = false) :
      WorkerStep state id worker .checkProcess
        (state.setWorker id { worker with phase := .acking msg finished })
  | accept {msg : QueueMsg} {finished : List GoString}
      (hphase : worker.phase = .acking msg finished) (hleading : state.leading = true) :
      WorkerStep state id worker (.ack true)
        ((state.accept worker msg finished).setWorker id
          { worker with phase := .acked msg finished })
  | reject {msg : QueueMsg} {finished : List GoString} {ok : Bool}
      (hphase : worker.phase = .acking msg finished)
      (hrejected : ¬ (state.leading = true ∧ ok = true)) :
      WorkerStep state id worker (.ack ok)
        (state.setWorker id { worker with phase := .rejected msg })
  | forget {msg : QueueMsg} {finished : List GoString}
      (hphase : worker.phase = .acked msg finished)
      (hdone : (msg.markAcked finished).done = true) :
      WorkerStep state id worker .finish
        ((state.forget (msg.markAcked finished).msgID).setWorker id
          { worker with phase := .starting })
  | again {msg : QueueMsg} {finished : List GoString}
      (hphase : worker.phase = .acked msg finished) :
      WorkerStep state id worker .finish
        (state.setWorker id { worker with
          buffer := worker.buffer ++ [msg.markAcked finished], phase := .starting })
  | requeue {msg : QueueMsg} (hphase : worker.phase = .rejected msg) :
      WorkerStep state id worker .requeue
        (state.setWorker id
          { worker with buffer := worker.buffer ++ [msg], phase := .starting })

inductive FeederStep (state : Delivery) (id : Nat) :
    Feeder → FeederAction → Delivery → Prop
  | refused {queueName msgID payload : GoString} {subList : GoMap SubPolicy}
      (hfresh : msgID ∉ state.used) :
      FeederStep state id (.fetched queueName subList) (.commit msgID payload)
        ({ state with used := insert msgID state.used }.setFeeder id none)
  | commit {queueName msgID payload : GoString} {subList : GoMap SubPolicy}
      {msg : MessageInfo} {store : InMemoryStorage} (hfresh : msgID ∉ state.used)
      (henqueue : state.store.enqueue queueName msgID payload subList =
        .ok (msg, store)) :
      FeederStep state id (.fetched queueName subList) (.commit msgID payload)
        ({ state with used := insert msgID state.used, store }.setFeeder id
          (some (.committed queueName msg)))
  | handOver {queueName : GoString} {msg : MessageInfo} :
      FeederStep state id (.committed queueName msg) .schedule
        ((state.schedule queueName msg).setFeeder id none)
  | readNames :
      FeederStep state id .starting .readNames
        (state.setFeeder id (some (.sweeping [] [] state.store.queueNames)))
  | readPending {swept queueName : GoString} {queueNames : List GoString} :
      FeederStep state id (.sweeping swept [] (queueName :: queueNames)) .readPending
        (state.setFeeder id (some (.sweeping queueName
          ((state.store.pendingMessages queueName).toOption.getD []) queueNames)))
  | sweep {queueName : GoString} {msg : MessageInfo} {msgs : List MessageInfo}
      {queueNames : List GoString} :
      FeederStep state id (.sweeping queueName (msg :: msgs) queueNames) .schedule
        ((state.schedule queueName msg).setFeeder id
          (some (.sweeping queueName msgs queueNames)))

/-- The steps of Raft and of `Manager.Run`, by what they do to the tenure. -/
inductive TenureStep (state : Delivery) : DeliveryEvent → Delivery → Prop
  | gain (hleading : state.leading = false) :
      TenureStep state .gain
        { state with leading := true, tenure := state.tenure + 1, signal := some true }
  | lose (hleading : state.leading = true) :
      TenureStep state .lose { state with leading := false, signal := some false }
  | advance {event : DeliveryEvent} {signal : Option Bool} {runPhase : RunPhase} :
      TenureStep state event { state with signal, runPhase }
  | demote {event : DeliveryEvent} {signal : Option Bool} {runPhase : RunPhase} :
      TenureStep state event { state.demote with signal, runPhase }
  | openTenure {sweep : Nat} (hfree : state.feeders sweep = none) :
      TenureStep state (.openTenure sweep)
        ({ state with
          runPhase := .waiting
          stopCh := some state.channels
          channels := state.channels + 1 }.setFeeder sweep (some .starting))

inductive Stepped (state : Delivery) : DeliveryEvent → Delivery → Prop
  | tenure {event : DeliveryEvent} {next : Delivery}
      (hleadership : event.isLeadership = true) (hstep : TenureStep state event next) :
      Stepped state event next
  | replicate {cmd : Command} :
      Stepped state (.replicate cmd)
        { state with store := (FSM.applyCommand 0 state.store cmd).2 }
  | fetch {id : Nat} {queueName : GoString} {subList : GoMap SubPolicy}
      (hfree : state.feeders id = none)
      (hsubs : state.store.fetchSubList queueName = some subList) :
      Stepped state (.fetch id queueName)
        (state.setFeeder id (some (.fetched queueName subList)))
  | tick {id : Nat} (hfree : state.feeders id = none) :
      Stepped state (.tick id) (state.setFeeder id (some .starting))
  | feeder {id : Nat} {feeder : Feeder} {action : FeederAction} {next : Delivery}
      (hfeeder : state.feeders id = some feeder)
      (hstep : FeederStep state id feeder action next) :
      Stepped state (.feeder id action) next
  | worker {id : Nat} {worker : Worker} {action : WorkerAction} {next : Delivery}
      (hworker : state.workers id = some worker)
      (hstep : WorkerStep state id worker action next) :
      Stepped state (.worker id action) next

inductive Scheduled (state : Delivery) (queueName : GoString) (msg : MessageInfo) :
    Delivery → Prop
  | dropped : Scheduled state queueName msg state
  | missing (hfresh : msg.msgID ∉ state.inFlightMsgs)
      (hpending : msg.pendingSubs.len ≠ 0) {id : Nat}
      (hqueue : state.queues.lookup queueName = some id)
      (hworker : state.workers id = none) :
      Scheduled state queueName msg
        { state with inFlightMsgs := insert msg.msgID state.inFlightMsgs }
  | joined (hfresh : msg.msgID ∉ state.inFlightMsgs)
      (hpending : msg.pendingSubs.len ≠ 0) {id : Nat} {worker : Worker}
      (hqueue : state.queues.lookup queueName = some id)
      (hworker : state.workers id = some worker) :
      Scheduled state queueName msg
        ({ state with inFlightMsgs := insert msg.msgID state.inFlightMsgs }.setWorker id
          { worker with buffer := worker.buffer ++ [newQueueMsg msg] })
  | created (hfresh : msg.msgID ∉ state.inFlightMsgs)
      (hpending : msg.pendingSubs.len ≠ 0) {stopCh : Nat}
      (hstopCh : state.stopCh = some stopCh)
      (hqueue : state.queues.lookup queueName = none) :
      Scheduled state queueName msg
        ({ state with
          inFlightMsgs := insert msg.msgID state.inFlightMsgs
          queues := state.queues.insert queueName state.workerCount
          workerCount := state.workerCount + 1 }.setWorker state.workerCount
            { queueName, stopCh, tenure := state.tenure, buffer := [newQueueMsg msg],
              phase := .starting })

theorem scheduled_schedule (state : Delivery) (queueName : GoString)
    (msg : MessageInfo) :
    Scheduled state queueName msg (state.schedule queueName msg) := by
  unfold schedule
  split
  · exact .dropped
  rename_i stopCh hstopCh
  split_ifs with hinFlight hnobody
  · exact .dropped
  · exact .dropped
  · cases hqueue : state.queues.lookup queueName with
    | some id =>
        simp only [queueFor, hqueue, add]
        split
        · exact .missing hinFlight hnobody hqueue ‹_›
        · exact .joined hinFlight hnobody hqueue ‹_›
    | none =>
        simp only [queueFor, hqueue, add, Function.update_self, setWorker,
          Function.update_idem, List.nil_append]
        exact .created hinFlight hnobody hstopCh hqueue

theorem schedule_store (state : Delivery) (queueName : GoString) (msg : MessageInfo) :
    (state.schedule queueName msg).store = state.store ∧
      (state.schedule queueName msg).used = state.used := by
  have hscheduled := scheduled_schedule state queueName msg
  generalize state.schedule queueName msg = next at hscheduled ⊢
  cases hscheduled <;> exact ⟨rfl, rfl⟩

theorem workerStep_of_stepWorker {state next : Delivery} {id : Nat} {worker : Worker}
    {action : WorkerAction} (hstep : state.stepWorker id worker action = some next) :
    WorkerStep state id worker action next := by
  cases action with
  | checkRun =>
      simp only [stepWorker] at hstep
      split at hstep
      · split_ifs at hstep with hstopped
        · cases hstep
          exact .exit ‹_› hstopped
        · cases hstep
          exact .enter ‹_› (by simpa using hstopped)
      · contradiction
  | pop =>
      simp only [stepWorker] at hstep
      split at hstep
      · cases hstep
        exact .sleep ‹_› ‹_›
      · split_ifs at hstep with hsettled
        · cases hstep
          exact .popSettled ‹_› ‹_› hsettled
        · cases hstep
          exact .popPending ‹_› ‹_›
      · contradiction
  | wake =>
      simp only [stepWorker] at hstep
      split at hstep
      · cases hstep
        exact .wake ‹_›
      · contradiction
  | drop =>
      simp only [stepWorker] at hstep
      split at hstep
      · cases hstep
        exact .drop ‹_›
      · contradiction
  | result subName ok =>
      simp only [stepWorker] at hstep
      split at hstep
      · split at hstep
        · contradiction
        · split at hstep
          · contradiction
          · cases hstep
            exact .result ‹_› ‹_› ‹_›
      · contradiction
  | collect =>
      simp only [stepWorker] at hstep
      split at hstep
      · split_ifs at hstep
        cases hstep
        exact .collect ‹_›
      · contradiction
  | checkProcess =>
      simp only [stepWorker] at hstep
      split at hstep
      · split_ifs at hstep with hstopped hempty
        · cases hstep
          exact .discard ‹_› hstopped
        · cases hstep
          exact .unsettled ‹_› (by simpa using hempty)
        · cases hstep
          exact .propose ‹_› (by simpa using hstopped)
      · contradiction
  | ack ok =>
      simp only [stepWorker] at hstep
      split at hstep
      · split_ifs at hstep with haccepted
        · cases hstep
          obtain ⟨hleading, rfl⟩ := Bool.and_eq_true_iff.mp haccepted
          exact .accept ‹_› hleading
        · cases hstep
          exact .reject ‹_› (by simpa using haccepted)
      · contradiction
  | finish =>
      simp only [stepWorker] at hstep
      split at hstep
      · rename_i hphase
        split_ifs at hstep with hdone
        · cases hstep
          exact WorkerStep.forget hphase hdone
        · cases hstep
          exact .again hphase
      · contradiction
  | requeue =>
      simp only [stepWorker] at hstep
      split at hstep
      · cases hstep
        exact .requeue ‹_›
      · contradiction

theorem feederStep_of_stepFeeder {state next : Delivery} {id : Nat} {feeder : Feeder}
    {action : FeederAction} (hstep : state.stepFeeder id feeder action = some next) :
    FeederStep state id feeder action next := by
  unfold stepFeeder at hstep
  split at hstep
  · split_ifs at hstep with hfresh
    dsimp only at hstep
    split at hstep
    · cases hstep
      exact .refused hfresh.2
    · cases hstep
      exact .commit hfresh.2 ‹_›
  · cases hstep
    exact .handOver
  · cases hstep
    exact .readNames
  · cases hstep
    exact .readPending
  · cases hstep
    exact .sweep
  · contradiction

theorem tenureStep_of_stepRun {state next : Delivery} {event : DeliveryEvent}
    (hstep : state.stepRun event = some next) : TenureStep state event next := by
  unfold stepRun at hstep
  split at hstep
  · split at hstep
    · cases hstep
      exact .advance
    · cases hstep
      exact .demote
    · contradiction
  · split at hstep
    · split_ifs at hstep
      · cases hstep
        exact .advance
      · cases hstep
        exact .advance
    · contradiction
  · split at hstep
    · cases hstep
      exact .demote
    · contradiction
  · split at hstep
    · split_ifs at hstep
      all_goals
        cases hstep
        exact .advance
    · contradiction
  · split at hstep
    · cases hstep
      exact .openTenure ‹_›
    · contradiction
  · contradiction

theorem stepped_of_step {state next : Delivery} {event : DeliveryEvent}
    (hstep : state.step event = some next) : Stepped state event next := by
  cases event with
  | gain =>
      simp only [step] at hstep
      split_ifs at hstep with hleading
      cases hstep
      exact .tenure rfl (.gain (by simpa using hleading))
  | lose =>
      simp only [step] at hstep
      split_ifs at hstep with hleading
      cases hstep
      exact .tenure rfl (.lose hleading)
  | replicate cmd =>
      cases hstep
      exact .replicate
  | receive | checkLeader | tearDown | barrier | openTenure =>
      exact .tenure rfl (tenureStep_of_stepRun hstep)
  | stop =>
      cases hstep
      exact .tenure rfl .demote
  | fetch id queueName =>
      simp only [step] at hstep
      split at hstep
      · cases hstep
        exact .fetch ‹_› ‹_›
      · contradiction
  | tick id =>
      simp only [step] at hstep
      split at hstep
      · cases hstep
        exact .tick ‹_›
      · contradiction
  | feeder id action =>
      simp only [step] at hstep
      split at hstep
      · contradiction
      · exact .feeder ‹_› (feederStep_of_stepFeeder hstep)
  | worker id action =>
      simp only [step] at hstep
      split at hstep
      · contradiction
      · exact .worker ‹_› (workerStep_of_stepWorker hstep)

theorem items_of_phase {worker : Worker} {msg : QueueMsg}
    (hphase : worker.phase.msg? = some msg) : worker.items = msg :: worker.buffer := by
  simp [Worker.items, hphase]

theorem items_of_idle {worker : Worker} (hphase : worker.phase.msg? = none) :
    worker.items = worker.buffer := by
  simp [Worker.items, hphase]

end Delivery

end SimonMQ.Dist
