import SimonMQ.Dist.Delivery
import SimonMQ.Dist.Outstanding
import SimonMQ.Dist.Snapshot

namespace SimonMQ.Dist.Delivery

open SimonMQ.Go
open SimonMQ.Transition
open InMemoryStorage

/-! Deliveries within one tenure.  The dedupe set keeps a message from being scheduled
twice while it is worked on; once its worker has forgotten it, only the store can tell
that it is settled. -/

/-- The step belongs to a tenure in which every ack proposal succeeds: nothing changes
leadership, and messages come only from this node's handlers and workers. -/
def inTenure : DeliveryEvent → Bool
  | .replicate cmd => cmd.isAdministrative
  | .fetch _ _ | .tick _ | .feeder _ _ => true
  | .worker _ (.ack ok) => ok
  | .worker _ _ => true
  | _ => false

/-- A tenure right after `promote` opened it: nothing is scheduled, and the promotion
sweep is about to read the queue names. -/
def tenureStart (store : InMemoryStorage) (used : Finset GoString) : Delivery :=
  { initial with
    store
    leading := true
    tenure := 1
    stopCh := some 0
    channels := 1
    feeders := Function.update (fun _ => none) 0 (some .starting)
    used }

def holdsMsg (store : InMemoryStorage) (queueName msgID : GoString) : Bool :=
  ((store.queues.lookup queueName).bind fun queue =>
    queue.messages.lookup msgID).isSome

/-- The message is dropped by `Schedule`, or is still in the store. -/
def Presentable (state : Delivery) (queueName : GoString) (msg : MessageInfo) : Prop :=
  msg.msgID ∈ state.inFlightMsgs ∨ msg.pendingSubs.len = 0 ∨
    holdsMsg state.store queueName msg.msgID = true

instance (state : Delivery) (queueName : GoString) (msg : MessageInfo) :
    Decidable (state.Presentable queueName msg) :=
  inferInstanceAs (Decidable (_ ∨ _ ∨ _))

def Feeder.next? : Feeder → Option (GoString × MessageInfo)
  | .committed queueName msg | .sweeping queueName (msg :: _) _ => some (queueName, msg)
  | .fetched _ _ | .starting | .sweeping _ [] _ => none

/-- No handler and no sweep schedules a copy of a message that was settled since. -/
def Current (state : Delivery) : DeliveryEvent → Prop
  | .feeder id .schedule => ∀ feeder ∈ state.feeders id, ∀ next ∈ Feeder.next? feeder,
      state.Presentable next.1 next.2
  | _ => True

instance (state : Delivery) : ∀ event, Decidable (state.Current event)
  | .feeder id .schedule => inferInstanceAs (Decidable (∀ feeder ∈ state.feeders id,
      ∀ next ∈ Feeder.next? feeder, state.Presentable next.1 next.2))
  | .feeder _ (.commit _ _) | .feeder _ .readNames | .feeder _ .readPending
  | .gain | .lose | .replicate _ | .receive | .checkLeader | .tearDown | .barrier _
  | .openTenure _ | .stop | .fetch _ _ | .tick _ | .worker _ _ => isTrue trivial

theorem holdsMsg_iff {store : InMemoryStorage} {queueName msgID : GoString} :
    holdsMsg store queueName msgID = true ↔ ∃ msg, store.Holds queueName msgID msg := by
  simp only [holdsMsg, Option.isSome_iff_exists, Option.bind_eq_some_iff, Holds]

/-- A copy of a message that has not run ahead of the store. -/
structure Follows (state : Delivery) (queueName msgID : GoString)
    (subList : GoMap SubPolicy) (acked : Finset GoString) : Prop where
  used : msgID ∈ state.used
  keyed : KeyedByName subList
  held : ∀ name msg, state.store.Holds name msgID msg →
    name = queueName ∧ msg.subList = subList ∧ acked ⊆ msg.ackedSubs

/-- Who has got the message is listed as acked or as finished in this pass. -/
structure Settled (state : Delivery) (msg : QueueMsg) (finished : List GoString) :
    Prop where
  delivered : ∀ name, 0 < state.delivered msg.msgID name →
    name ∈ msg.ackedSubs ∨ name ∈ finished
  known : ∀ name ∈ finished, name ∈ msg.subList

def PhaseOk (state : Delivery) : WorkerPhase → Prop
  | .starting | .popping | .waiting | .returned => True
  | .dropping msg => ∀ name ∈ msg.subList, name ∈ msg.ackedSubs
  | .sending msg answered results =>
      (∀ name, 0 < state.delivered msg.msgID name → name ∈ msg.ackedSubs ∨
        (name ∈ answered ∧ { subName := name, ok := true } ∈ results)) ∧
      ∀ result ∈ results, result.subName ∈ msg.subList
  | .collected msg finished | .acking msg finished => state.Settled msg finished
  | .acked msg finished => state.Settled msg finished ∧
      ∀ name held, state.store.Holds name msg.msgID held →
        finished.toFinset ⊆ held.ackedSubs
  | .rejected _ => False

structure WorkerOk (state : Delivery) (worker : Worker) : Prop where
  nodup : worker.ids.Nodup
  inFlight : ∀ msg ∈ worker.items, msg.msgID ∈ state.inFlightMsgs
  follows : ∀ msg ∈ worker.items,
    state.Follows worker.queueName msg.msgID msg.subList msg.ackedSubs
  buffer : ∀ msg ∈ worker.buffer, ∀ name, 0 < state.delivered msg.msgID name →
    name ∈ msg.ackedSubs
  phase : state.PhaseOk worker.phase

def FeederOk (state : Delivery) : Feeder → Prop
  | .fetched _ subList => KeyedByName subList
  | .committed queueName msg =>
      state.Follows queueName msg.msgID msg.subList msg.ackedSubs.toFinset
  | .starting => True
  | .sweeping queueName msgs _ => ∀ msg ∈ msgs,
      state.Follows queueName msg.msgID msg.subList msg.ackedSubs.toFinset

structure Once (state : Delivery) : Prop where
  leading : state.leading = true
  store : state.store.Outstanding state.used
  bounded : ∀ id worker, state.workers id = some worker → id < state.workerCount
  created : ∀ queueName id, state.queues.lookup queueName = some id →
    id < state.workerCount
  registered : ∀ queueName id worker, state.queues.lookup queueName = some id →
    state.workers id = some worker → worker.queueName = queueName
  workers : ∀ id worker, state.workers id = some worker → state.WorkerOk worker
  apart : ∀ id other worker otherWorker, state.workers id = some worker →
    state.workers other = some otherWorker →
    ∀ msgID ∈ worker.ids, msgID ∈ otherWorker.ids → id = other
  feeders : ∀ id feeder, state.feeders id = some feeder → state.FeederOk feeder
  once : ∀ msgID name, state.delivered msgID name ≤ 1
  settled : ∀ msgID name, 0 < state.delivered msgID name → msgID ∈ state.used ∧
    (msgID ∈ state.inFlightMsgs ∨ ∀ queueName msg, ¬ state.store.Holds queueName msgID msg)

theorem Follows.mono {state next : Delivery} {queueName msgID : GoString}
    {subList : GoMap SubPolicy} {acked : Finset GoString}
    (hfollows : state.Follows queueName msgID subList acked)
    (hused : state.used ⊆ next.used)
    (hretains : state.store.Retains state.used next.store) :
    next.Follows queueName msgID subList acked where
  used := hused hfollows.used
  keyed := hfollows.keyed
  held := by
    intro name msg hholds
    obtain ⟨before, hbefore, hsubs, hacked⟩ :=
      hretains name msgID msg hholds hfollows.used
    obtain ⟨hname, hlist, hsubset⟩ := hfollows.held name before hbefore
    exact ⟨hname, hsubs.trans hlist, hsubset.trans hacked⟩

theorem FeederOk.mono {state next : Delivery} {feeder : Feeder}
    (hok : state.FeederOk feeder) (hused : state.used ⊆ next.used)
    (hretains : state.store.Retains state.used next.store) : next.FeederOk feeder := by
  cases feeder with
  | fetched => exact hok
  | committed => exact Follows.mono hok hused hretains
  | starting => trivial
  | sweeping => exact fun msg hmem => (hok msg hmem).mono hused hretains

theorem Settled.mono {state next : Delivery} {msg : QueueMsg} {finished : List GoString}
    (hsettled : state.Settled msg finished)
    (hdelivered : next.delivered msg.msgID = state.delivered msg.msgID) :
    next.Settled msg finished where
  delivered := by
    rw [hdelivered]
    exact hsettled.delivered
  known := hsettled.known

theorem WorkerOk.mono {state next : Delivery} {worker : Worker}
    (hok : state.WorkerOk worker)
    (hinFlight : ∀ msgID ∈ worker.ids, msgID ∈ next.inFlightMsgs)
    (hdelivered : ∀ msgID ∈ worker.ids, next.delivered msgID = state.delivered msgID)
    (hused : state.used ⊆ next.used)
    (hretains : state.store.Retains state.used next.store) : next.WorkerOk worker where
  nodup := hok.nodup
  inFlight := fun msg hmem => hinFlight msg.msgID (List.mem_map_of_mem hmem)
  follows := fun msg hmem => (hok.follows msg hmem).mono hused hretains
  buffer := by
    intro msg hmem
    rw [hdelivered msg.msgID
      (List.mem_map_of_mem (List.mem_append_right _ hmem))]
    exact hok.buffer msg hmem
  phase := by
    have hphase := hok.phase
    have hhand : ∀ msg, worker.phase.msg? = some msg →
        next.delivered msg.msgID = state.delivered msg.msgID ∧ msg.msgID ∈ state.used := by
      intro msg hmsg
      have hmem : msg ∈ worker.items :=
        List.mem_append_left _ (by simp [hmsg])
      exact ⟨hdelivered msg.msgID (List.mem_map_of_mem hmem), (hok.follows msg hmem).used⟩
    cases hcase : worker.phase with
    | starting | popping | waiting | returned => trivial
    | rejected msg =>
        rw [hcase] at hphase
        exact hphase
    | dropping msg =>
        rw [hcase] at hphase
        exact hphase
    | sending msg answered results =>
        rw [hcase] at hphase
        obtain ⟨hsame, _⟩ := hhand msg (by rw [hcase]; rfl)
        refine ⟨?_, hphase.2⟩
        rw [hsame]
        exact hphase.1
    | collected msg finished | acking msg finished =>
        rw [hcase] at hphase
        exact Settled.mono hphase (hhand msg (by rw [hcase]; rfl)).1
    | acked msg finished =>
        rw [hcase] at hphase
        obtain ⟨hsame, hmsgUsed⟩ := hhand msg (by rw [hcase]; rfl)
        refine ⟨hphase.1.mono hsame, ?_⟩
        intro name held hholds
        obtain ⟨before, hbefore, _, hacked⟩ := hretains name msg.msgID held hholds hmsgUsed
        exact (hphase.2 name before hbefore).trans hacked

theorem WorkerOk.frame {state : Delivery} {worker : Worker} (hok : state.WorkerOk worker)
    {next : Delivery} (hinFlight : next.inFlightMsgs = state.inFlightMsgs)
    (hdelivered : next.delivered = state.delivered) (hused : next.used = state.used)
    (hstore : next.store = state.store) : next.WorkerOk worker := by
  refine hok.mono ?_ (fun _ _ => by rw [hdelivered]) (by rw [hused]) (by rw [hstore]; simp)
  intro msgID hmem
  obtain ⟨msg, hmsg, rfl⟩ := List.mem_map.mp hmem
  exact hinFlight ▸ hok.inFlight msg hmsg

theorem FeederOk.frame {state : Delivery} {feeder : Feeder} (hok : state.FeederOk feeder)
    {next : Delivery} (hused : next.used = state.used)
    (hstore : next.store = state.store) : next.FeederOk feeder :=
  hok.mono (by rw [hused]) (by rw [hstore]; simp)

theorem WorkerOk.used {state : Delivery} {worker : Worker} (hok : state.WorkerOk worker)
    {msgID : GoString} (hmem : msgID ∈ worker.ids) : msgID ∈ state.used := by
  obtain ⟨msg, hmsg, rfl⟩ := List.mem_map.mp hmem
  exact (hok.follows msg hmsg).used

theorem WorkerOk.mem_inFlight {state : Delivery} {worker : Worker}
    (hok : state.WorkerOk worker) {msgID : GoString} (hmem : msgID ∈ worker.ids) :
    msgID ∈ state.inFlightMsgs := by
  obtain ⟨msg, hmsg, rfl⟩ := List.mem_map.mp hmem
  exact hok.inFlight msg hmsg

theorem Once.setWorker {state next : Delivery} (honce : state.Once) {id : Nat}
    {worker new : Worker} (hworker : state.workers id = some worker)
    (hframe : next = { state with
      workers := next.workers, store := next.store, acks := next.acks
      inFlightMsgs := next.inFlightMsgs, delivered := next.delivered })
    (hworkers : next.workers = Function.update state.workers id (some new))
    (hname : new.queueName = worker.queueName)
    (hids : ∀ msgID ∈ new.ids, msgID ∈ worker.ids)
    (hstore : next.store.Outstanding state.used)
    (hretains : state.store.Retains state.used next.store)
    (hinFlight : ∀ msgID ∈ state.inFlightMsgs, msgID ∉ worker.ids →
      msgID ∈ next.inFlightMsgs)
    (hdelivered : ∀ msgID, msgID ∉ worker.ids →
      next.delivered msgID = state.delivered msgID)
    (hok : next.WorkerOk new)
    (honly : ∀ msgID ∈ worker.ids, ∀ name, next.delivered msgID name ≤ 1)
    (hsettled : ∀ msgID ∈ worker.ids, msgID ∈ next.inFlightMsgs ∨
      ∀ queueName msg, ¬ next.store.Holds queueName msgID msg) : next.Once := by
  have hused : next.used = state.used := by rw [hframe]
  have hqueues : next.queues = state.queues := by rw [hframe]
  have hfeeders : next.feeders = state.feeders := by rw [hframe]
  have hlookup : ∀ other found, next.workers other = some found →
      (other = id ∧ found = new) ∨ (other ≠ id ∧ state.workers other = some found) := by
    intro other found hfound
    rw [hworkers] at hfound
    exact found_of_setWorker hfound
  have hforeign : ∀ other found, other ≠ id → state.workers other = some found →
      ∀ msgID ∈ found.ids, msgID ∉ worker.ids := by
    intro other found hother hfound msgID hmem hown
    exact hother (honce.apart other id found worker hfound hworker msgID hmem hown)
  refine { leading := ?_, store := hused ▸ hstore, bounded := ?_, created := ?_,
           registered := ?_, workers := ?_, apart := ?_, feeders := ?_, once := ?_,
           settled := ?_ }
  · rw [hframe]
    exact honce.leading
  · intro other found hfound
    have hcount : next.workerCount = state.workerCount := by rw [hframe]
    rw [hcount]
    rcases hlookup other found hfound with ⟨rfl, _⟩ | ⟨_, hfound⟩
    · exact honce.bounded other worker hworker
    · exact honce.bounded other found hfound
  · rw [hframe]
    exact honce.created
  · intro queueName other found hqueue hfound
    rw [hqueues] at hqueue
    rcases hlookup other found hfound with ⟨rfl, rfl⟩ | ⟨_, hfound⟩
    · exact hname.trans (honce.registered queueName other worker hqueue hworker)
    · exact honce.registered queueName other found hqueue hfound
  · intro other found hfound
    rcases hlookup other found hfound with ⟨rfl, rfl⟩ | ⟨hother, hfound⟩
    · exact hok
    · have hown := honce.workers other found hfound
      have hnot := hforeign other found hother hfound
      exact hown.mono
        (fun msgID hmem => hinFlight msgID (hown.mem_inFlight hmem) (hnot msgID hmem))
        (fun msgID hmem => hdelivered msgID (hnot msgID hmem)) (by rw [hused]) hretains
  · intro first second firstWorker secondWorker hfirst hsecond msgID hmem hother
    rcases hlookup first firstWorker hfirst with ⟨rfl, rfl⟩ | ⟨hfirstNe, hfirst⟩
    · rcases hlookup second secondWorker hsecond with ⟨rfl, rfl⟩ | ⟨hsecondNe, hsecond⟩
      · rfl
      · exact absurd (hids msgID hmem) (hforeign second _ hsecondNe hsecond msgID hother)
    · rcases hlookup second secondWorker hsecond with ⟨rfl, rfl⟩ | ⟨_, hsecond⟩
      · exact absurd (hids msgID hother) (hforeign first _ hfirstNe hfirst msgID hmem)
      · exact honce.apart first second _ _ hfirst hsecond msgID hmem hother
  · intro other feeder hfeeder
    rw [hfeeders] at hfeeder
    exact (honce.feeders other feeder hfeeder).mono (by rw [hused]) hretains
  · intro msgID name
    by_cases hown : msgID ∈ worker.ids
    · exact honly msgID hown name
    · rw [hdelivered msgID hown]
      exact honce.once msgID name
  · intro msgID name hpositive
    rw [hused]
    by_cases hown : msgID ∈ worker.ids
    · exact ⟨(honce.workers id worker hworker).used hown, hsettled msgID hown⟩
    · rw [hdelivered msgID hown] at hpositive
      obtain ⟨hmsgUsed, hcase⟩ := honce.settled msgID name hpositive
      refine ⟨hmsgUsed, ?_⟩
      rcases hcase with hmem | hgone
      · exact .inl (hinFlight msgID hmem hown)
      · refine .inr fun queueName msg hholds => ?_
        obtain ⟨before, hbefore, _⟩ := hretains queueName msgID msg hholds hmsgUsed
        exact hgone queueName before hbefore

theorem Once.move {state : Delivery} (honce : state.Once) {id : Nat}
    {worker new : Worker} (hworker : state.workers id = some worker)
    (hname : new.queueName = worker.queueName)
    (hids : ∀ msgID ∈ new.ids, msgID ∈ worker.ids)
    (hok : state.WorkerOk new) : (state.setWorker id new).Once := by
  have hown := honce.workers id worker hworker
  have hretains := Retains.refl state.used state.store
  refine honce.setWorker hworker rfl rfl hname hids honce.store hretains
    (fun _ hmem _ => hmem) (fun _ _ => rfl) ?_ (fun msgID _ name => honce.once msgID name)
    fun msgID hmem => .inl (hown.mem_inFlight hmem)
  exact hok.mono (fun msgID hmem => hown.mem_inFlight (hids msgID hmem))
    (fun _ _ => rfl) (Finset.Subset.refl _) hretains

/-- What the invariant reads of a message on its way. -/
def core (msg : QueueMsg) : GoString × GoMap SubPolicy × Finset GoString :=
  (msg.msgID, msg.subList, msg.ackedSubs)

theorem WorkerOk.of_sublist {state : Delivery} {worker new : Worker}
    (hok : state.WorkerOk worker) (hname : new.queueName = worker.queueName)
    (hitems : (new.items.map core).Sublist (worker.items.map core))
    (hbuffer : ∀ msg ∈ new.buffer, msg ∈ worker.buffer)
    (hphase : state.PhaseOk new.phase) :
    state.WorkerOk new ∧ ∀ msgID ∈ new.ids, msgID ∈ worker.ids := by
  have hmem : ∀ msg ∈ new.items, ∃ old ∈ worker.items, core old = core msg := by
    intro msg hmsg
    exact List.mem_map.mp (hitems.subset (List.mem_map_of_mem hmsg))
  have hids : new.ids.Sublist worker.ids := by
    have hfirst := hitems.map Prod.fst
    rw [List.map_map, List.map_map] at hfirst
    exact hfirst
  refine ⟨{ nodup := hok.nodup.sublist hids, inFlight := ?_, follows := ?_,
            buffer := fun msg hmsg => hok.buffer msg (hbuffer msg hmsg),
            phase := hphase }, fun msgID hmsgID => hids.subset hmsgID⟩
  · intro msg hmsg
    obtain ⟨old, hold, hcore⟩ := hmem msg hmsg
    have hid : old.msgID = msg.msgID := congrArg Prod.fst hcore
    exact hid ▸ hok.inFlight old hold
  · intro msg hmsg
    obtain ⟨old, hold, hcore⟩ := hmem msg hmsg
    simp only [core, Prod.mk.injEq] at hcore
    obtain ⟨hid, hsubs, hacked⟩ := hcore
    rw [hname, ← hid, ← hsubs, ← hacked]
    exact hok.follows old hold

theorem Once.step {state : Delivery} (honce : state.Once) {id : Nat}
    {worker new : Worker} (hworker : state.workers id = some worker)
    (hname : new.queueName = worker.queueName)
    (hitems : (new.items.map core).Sublist (worker.items.map core))
    (hbuffer : ∀ msg ∈ new.buffer, msg ∈ worker.buffer)
    (hphase : state.PhaseOk new.phase) : (state.setWorker id new).Once := by
  obtain ⟨hok, hids⟩ :=
    (honce.workers id worker hworker).of_sublist hname hitems hbuffer hphase
  exact honce.move hworker hname hids hok

theorem not_holds_of_covered {state : Delivery} (hstore : state.store.Outstanding state.used)
    {queueName msgID : GoString} {subList : GoMap SubPolicy} {acked : Finset GoString}
    (hfollows : state.Follows queueName msgID subList acked)
    (hcovered : subList.len ≤ acked.card) :
    ∀ name msg, ¬ state.store.Holds name msgID msg := by
  intro name msg hholds
  obtain ⟨_, hsubs, hacked⟩ := hfollows.held name msg hholds
  have howed := hstore.owed name msgID msg hholds
  have hcard := Finset.card_le_card hacked
  rw [hsubs] at howed
  omega

theorem Once.forget {state : Delivery} (honce : state.Once) {id : Nat}
    {worker : Worker} (hworker : state.workers id = some worker) {msg : QueueMsg}
    (hhand : worker.phase.msg? = some msg)
    (hgone : ∀ name held, ¬ state.store.Holds name msg.msgID held) :
    ((state.forget msg.msgID).setWorker id { worker with phase := .starting }).Once := by
  have hok := honce.workers id worker hworker
  have hitems := items_of_phase hhand
  have hids : worker.ids = msg.msgID :: worker.buffer.map QueueMsg.msgID := by
    rw [Worker.ids, hitems, List.map_cons]
  have hnodup := hok.nodup
  rw [hids, List.nodup_cons] at hnodup
  obtain ⟨hnew, hsub⟩ : state.WorkerOk { worker with phase := .starting } ∧
      ∀ msgID ∈ Worker.ids { worker with phase := .starting }, msgID ∈ worker.ids :=
    hok.of_sublist rfl (by rw [hitems]; exact List.sublist_cons_self _ _)
      (fun _ hmem => hmem) trivial
  have hnewIds : ({ worker with phase := .starting } : Worker).ids =
      worker.buffer.map QueueMsg.msgID := rfl
  have hretains := Retains.refl state.used state.store
  refine honce.setWorker hworker rfl rfl rfl hsub honce.store hretains ?_
    (fun _ _ => rfl) ?_ (fun msgID _ name => honce.once msgID name) ?_
  · intro msgID hmem hforeign
    refine Finset.mem_erase.mpr ⟨?_, hmem⟩
    rintro rfl
    exact hforeign (by rw [hids]; exact List.mem_cons_self)
  · refine hnew.mono ?_ (fun _ _ => rfl) (Finset.Subset.refl _) hretains
    intro msgID hmem
    refine Finset.mem_erase.mpr ⟨?_, hnew.mem_inFlight hmem⟩
    rintro rfl
    exact hnodup.1 (hnewIds ▸ hmem)
  · intro msgID hmem
    by_cases hsame : msgID = msg.msgID
    · subst hsame
      exact .inr hgone
    · exact .inl (Finset.mem_erase.mpr ⟨hsame, hok.mem_inFlight hmem⟩)

theorem Once.result {state : Delivery} (honce : state.Once) {id : Nat}
    {worker : Worker} (hworker : state.workers id = some worker) {msg : QueueMsg}
    {answered : Finset GoString} {results : List DeliveryResult}
    (hphase : worker.phase = .sending msg answered results) {subName : GoString}
    {policy : SubPolicy} (hpending : msg.pendingSubs.lookup subName = some policy)
    (hfirst : subName ∉ answered) (ok : Bool) :
    ((if ok then state.deliver msg.msgID subName else state).setWorker id
      { worker with
        phase := .sending msg (insert subName answered)
          (results ++ [{ subName := policy.subName, ok }]) }).Once := by
  have hok := honce.workers id worker hworker
  have hitems : worker.items = msg :: worker.buffer :=
    items_of_phase (by rw [hphase]; rfl)
  have hmem : msg ∈ worker.items := by rw [hitems]; exact List.mem_cons_self
  have hsending := hok.phase
  rw [hphase] at hsending
  obtain ⟨hdelivered, hknown⟩ := hsending
  obtain ⟨hlookup, hunacked⟩ := QueueMsg.mem_pendingSubs.mp hpending
  have hpolicy : policy.subName = subName := (hok.follows msg hmem).keyed _ _ hlookup
  have hsame : ({ worker with
      phase := .sending msg (insert subName answered)
        (results ++ [{ subName := policy.subName, ok }]) } : Worker).items =
      worker.items := hitems.symm
  have hrecorded : ∀ result ∈ results ++ [({ subName := policy.subName, ok } : DeliveryResult)],
      result.subName ∈ msg.subList := by
    intro result hresult
    rcases List.mem_append.mp hresult with hold | hnew
    · exact hknown result hold
    · rw [List.mem_singleton.mp hnew, hpolicy]
      exact Finmap.mem_iff.mpr ⟨policy, hlookup⟩
  have hearlier : ∀ name, 0 < state.delivered msg.msgID name → name ∈ msg.ackedSubs ∨
      (name ∈ insert subName answered ∧ { subName := name, ok := true } ∈
        results ++ [({ subName := policy.subName, ok } : DeliveryResult)]) := by
    intro name hpositive
    refine (hdelivered name hpositive).imp_right ?_
    rintro ⟨hanswered, hresult⟩
    exact ⟨Finset.mem_insert_of_mem hanswered, List.mem_append_left _ hresult⟩
  cases ok with
  | false =>
      exact honce.step hworker rfl (by rw [hsame]) (fun _ hmem => hmem)
        ⟨hearlier, hrecorded⟩
  | true =>
      have hzero : state.delivered msg.msgID subName = 0 := by
        by_contra hpositive
        rcases hdelivered subName (Nat.pos_of_ne_zero hpositive) with hacked | ⟨hanswered, _⟩
        · exact hunacked hacked
        · exact hfirst hanswered
      have hids : worker.ids = msg.msgID :: worker.buffer.map QueueMsg.msgID := by
        rw [Worker.ids, hitems, List.map_cons]
      have hnodup := hok.nodup
      rw [hids, List.nodup_cons] at hnodup
      have hretains := Retains.refl state.used state.store
      refine honce.setWorker hworker rfl rfl rfl ?_ honce.store hretains
        (fun _ hmem _ => hmem) ?_ ?_ ?_ fun msgID hmem => .inl (hok.mem_inFlight hmem)
      · intro msgID hmem
        rwa [Worker.ids, hsame] at hmem
      · intro msgID hforeign
        refine delivered_deliver_of_ne state ?_ subName
        rintro rfl
        exact hforeign (List.mem_map_of_mem hmem)
      · refine { nodup := ?_, inFlight := ?_, follows := ?_, buffer := ?_, phase := ?_ }
        · rw [Worker.ids, hsame]
          exact hok.nodup
        · rw [hsame]
          exact hok.inFlight
        · rw [hsame]
          exact fun found hfound => { hok.follows found hfound with }
        · intro found hfound name hpositive
          have hother : found.msgID ≠ msg.msgID := by
            intro hid
            exact hnodup.1 (hid ▸ List.mem_map_of_mem hfound)
          rw [Delivery.setWorker, if_pos rfl, delivered_deliver_of_ne state hother] at hpositive
          exact hok.buffer found hfound name hpositive
        · refine ⟨?_, hrecorded⟩
          intro name hpositive
          rw [Delivery.setWorker, if_pos rfl, delivered_deliver] at hpositive
          split_ifs at hpositive with hname
          · subst hname
            refine .inr ⟨Finset.mem_insert_self _ _, List.mem_append_right _ ?_⟩
            rw [hpolicy]
            exact List.mem_singleton.mpr rfl
          · exact hearlier name hpositive
      · intro msgID hmem name
        rw [Delivery.setWorker, if_pos rfl]
        by_cases hid : msgID = msg.msgID
        · subst hid
          rw [delivered_deliver]
          split_ifs
          · omega
          · exact honce.once _ name
        · rw [delivered_deliver_of_ne state hid]
          exact honce.once msgID name

theorem Once.accept {state : Delivery} (honce : state.Once) {id : Nat}
    {worker : Worker} (hworker : state.workers id = some worker) {msg : QueueMsg}
    {finished : List GoString} (hphase : worker.phase = .acking msg finished) :
    ((state.accept worker msg finished).setWorker id
      { worker with phase := .acked msg finished }).Once := by
  have hok := honce.workers id worker hworker
  have hitems : worker.items = msg :: worker.buffer :=
    items_of_phase (by rw [hphase]; rfl)
  have hmem : msg ∈ worker.items := by rw [hitems]; exact List.mem_cons_self
  have hsettled := hok.phase
  rw [hphase] at hsettled
  have hretains : state.store.Retains state.used
      (state.store.ack worker.queueName msg.msgID finished) := retains_of_ack _ _ _
  have hmarked : ∀ name held,
      (state.store.ack worker.queueName msg.msgID finished).Holds name msg.msgID held →
        finished.toFinset ⊆ held.ackedSubs := by
    intro name held hholds
    rcases holds_of_ack hholds with ⟨hheld, hother⟩ | ⟨earlier, hheld, _, _, rfl, _⟩
    · exact absurd rfl (hother ((hok.follows msg hmem).held name held hheld).1)
    · obtain ⟨_, hsubs, _⟩ := (hok.follows msg hmem).held name earlier hheld
      intro acked hacked
      refine Finset.mem_union_right _ ?_
      rw [List.mem_toFinset] at hacked ⊢
      refine List.mem_filter.mpr ⟨hacked, ?_⟩
      rw [hsubs]
      simpa [Finmap.mem_keys] using hsettled.known acked hacked
  have hsame : ({ worker with phase := .acked msg finished } : Worker).items =
      worker.items := hitems.symm
  refine honce.setWorker hworker rfl rfl rfl ?_ (honce.store.ack _ _ _) hretains
    (fun _ hmem _ => hmem) (fun _ _ => rfl) ?_ (fun msgID _ name => honce.once msgID name)
    fun msgID hmem => .inl (hok.mem_inFlight hmem)
  · intro msgID hmem
    rwa [Worker.ids, hsame] at hmem
  · refine { nodup := ?_, inFlight := ?_, follows := ?_, buffer := hok.buffer,
             phase := ⟨hsettled.mono rfl, hmarked⟩ }
    · rw [Worker.ids, hsame]
      exact hok.nodup
    · rw [hsame]
      exact hok.inFlight
    · rw [hsame]
      exact fun found hfound =>
        (hok.follows found hfound).mono (Finset.Subset.refl _) hretains

theorem follows_markAcked {state : Delivery} {worker : Worker}
    (hok : state.WorkerOk worker) {msg : QueueMsg} {finished : List GoString}
    (hphase : worker.phase = .acked msg finished) :
    state.Follows worker.queueName msg.msgID msg.subList
      (msg.markAcked finished).ackedSubs := by
  have hmem : msg ∈ worker.items := by
    rw [items_of_phase (by rw [hphase]; rfl)]
    exact List.mem_cons_self
  have hacked := hok.phase
  rw [hphase] at hacked
  refine { hok.follows msg hmem with held := ?_ }
  intro name held hholds
  obtain ⟨hname, hsubs, hsubset⟩ := (hok.follows msg hmem).held name held hholds
  exact ⟨hname, hsubs, Finset.union_subset hsubset (hacked.2 name held hholds)⟩

theorem Once.again {state : Delivery} (honce : state.Once) {id : Nat}
    {worker : Worker} (hworker : state.workers id = some worker) {msg : QueueMsg}
    {finished : List GoString} (hphase : worker.phase = .acked msg finished) :
    (state.setWorker id { worker with
      buffer := worker.buffer ++ [msg.markAcked finished], phase := .starting }).Once := by
  have hok := honce.workers id worker hworker
  have hitems : worker.items = msg :: worker.buffer :=
    items_of_phase (by rw [hphase]; rfl)
  have hmem : msg ∈ worker.items := by rw [hitems]; exact List.mem_cons_self
  have hacked := hok.phase
  rw [hphase] at hacked
  have hids : (Worker.ids { worker with
      buffer := worker.buffer ++ [msg.markAcked finished], phase := .starting }).Perm
      worker.ids := by
    rw [Worker.ids, Worker.ids, hitems]
    simp only [Worker.items, WorkerPhase.msg?, Option.toList_none, List.nil_append,
      List.map_append, List.map_cons, List.map_nil]
    exact List.perm_append_singleton _ _
  have hbuffered : ∀ found ∈ worker.buffer ++ [msg.markAcked finished],
      found ∈ worker.buffer ∨ found = msg.markAcked finished := by
    intro found hfound
    simpa using hfound
  refine honce.move hworker rfl (fun msgID hmsgID => hids.subset hmsgID) ?_
  refine { nodup := hids.nodup_iff.mpr hok.nodup, inFlight := ?_, follows := ?_,
           buffer := ?_, phase := trivial }
  · intro found hfound
    rcases hbuffered found hfound with hold | rfl
    · exact hok.inFlight found (by rw [hitems]; exact List.mem_cons_of_mem _ hold)
    · exact hok.inFlight msg hmem
  · intro found hfound
    rcases hbuffered found hfound with hold | rfl
    · exact hok.follows found (by rw [hitems]; exact List.mem_cons_of_mem _ hold)
    · exact follows_markAcked hok hphase
  · intro found hfound name hpositive
    rcases hbuffered found hfound with hold | rfl
    · exact hok.buffer found hold name hpositive
    · rcases hacked.1.delivered name hpositive with hbefore | hnow
      · exact Finset.mem_union_left _ hbefore
      · exact Finset.mem_union_right _ (List.mem_toFinset.mpr hnow)

theorem Once.of_workerStep {state next : Delivery} (honce : state.Once) {id : Nat}
    {worker : Worker} (hworker : state.workers id = some worker) {action : WorkerAction}
    (htenure : inTenure (.worker id action) = true)
    (hstep : WorkerStep state id worker action next) : next.Once := by
  have hok := honce.workers id worker hworker
  have hown := hok.phase
  cases hstep with
  | exit hphase | enter hphase | wake hphase | sleep hphase =>
      have hitems : worker.items = worker.buffer := items_of_idle (by rw [hphase]; rfl)
      refine honce.step hworker rfl ?_ (fun _ hmem => hmem) trivial
      rw [hitems]
      exact List.Sublist.refl _
  | @popSettled msg buffer hphase hbuffer hsettled =>
      have hitems : worker.items = msg :: buffer := by
        rw [items_of_idle (by rw [hphase]; rfl), hbuffer]
      refine honce.step hworker rfl ?_ ?_ (QueueMsg.len_pendingSubs_eq_zero hsettled)
      · rw [hitems]
        exact List.Sublist.refl _
      · intro found hfound
        rw [hbuffer]
        exact List.mem_cons_of_mem _ hfound
  | @popPending msg buffer hphase hbuffer =>
      have hitems : worker.items = msg :: buffer := by
        rw [items_of_idle (by rw [hphase]; rfl), hbuffer]
      refine honce.step hworker rfl ?_ ?_ ⟨?_, fun _ hmem => absurd hmem List.not_mem_nil⟩
      · rw [hitems]
        exact List.Sublist.refl _
      · intro found hfound
        rw [hbuffer]
        exact List.mem_cons_of_mem _ hfound
      · intro name hpositive
        exact .inl (hok.buffer msg (by rw [hbuffer]; exact List.mem_cons_self) name hpositive)
  | @drop msg hphase =>
      rw [hphase] at hown
      have hhand : worker.phase.msg? = some msg := by rw [hphase]; rfl
      have hmem : msg ∈ worker.items := by
        rw [items_of_phase hhand]
        exact List.mem_cons_self
      have hcovered : msg.subList.len ≤ msg.ackedSubs.card :=
        Finset.card_le_card fun name hname => hown name (Finmap.mem_keys.mp hname)
      exact honce.forget hworker hhand
        (not_holds_of_covered honce.store (hok.follows msg hmem) hcovered)
  | result hphase hpending hfirst => exact honce.result hworker hphase hpending hfirst _
  | @collect msg answered results hphase =>
      rw [hphase] at hown
      have hhand : worker.phase.msg? = some msg := by rw [hphase]; rfl
      refine honce.step hworker rfl ?_ (fun _ hmem => hmem) ⟨?_, ?_⟩
      · rw [items_of_phase hhand]
        exact List.Sublist.refl _
      · intro name hpositive
        refine (hown.1 name hpositive).imp_right ?_
        rintro ⟨_, hresult⟩
        exact QueueMsg.mem_collect_of_ok hresult
      · intro name hfinished
        obtain ⟨result, hresult, rfl⟩ := QueueMsg.exists_result_of_mem_collect hfinished
        exact hown.2 result hresult
  | @discard msg finished hphase hstopped =>
      have hhand : worker.phase.msg? = some msg := by rw [hphase]; rfl
      refine honce.step hworker rfl ?_ (fun _ hmem => hmem) trivial
      rw [items_of_phase hhand]
      exact List.sublist_cons_self _ _
  | @unsettled msg finished hphase hempty =>
      rw [hphase] at hown
      have hhand : worker.phase.msg? = some msg := by rw [hphase]; rfl
      refine honce.step hworker rfl ?_ (fun _ hmem => hmem) ⟨hown, ?_⟩
      · rw [items_of_phase hhand]
        exact List.Sublist.refl _
      · intro name held _
        simp [hempty]
  | @propose msg finished hphase hrunning =>
      rw [hphase] at hown
      have hhand : worker.phase.msg? = some msg := by rw [hphase]; rfl
      refine honce.step hworker rfl ?_ (fun _ hmem => hmem) hown
      rw [items_of_phase hhand]
      exact List.Sublist.refl _
  | accept hphase hleading => exact honce.accept hworker hphase
  | reject hphase hrejected =>
      exact absurd ⟨honce.leading, htenure⟩ hrejected
  | @forget msg finished hphase hdone =>
      have hhand : worker.phase.msg? = some msg := by rw [hphase]; rfl
      have hcovered : msg.subList.len ≤ (msg.markAcked finished).ackedSubs.card :=
        of_decide_eq_true hdone
      have hforgotten := honce.forget hworker hhand
        (not_holds_of_covered honce.store (follows_markAcked hok hphase) hcovered)
      exact hforgotten
  | again hphase => exact honce.again hworker hphase
  | requeue hphase =>
      rw [hphase] at hown
      exact hown.elim

theorem Once.place {state : Delivery} (honce : state.Once) {id : Nat} {new : Worker}
    {msgID : GoString} (hbound : id < state.workerCount)
    (hnew : ∀ other worker, state.workers other = some worker → msgID ∉ worker.ids)
    (hids : ∀ found ∈ new.ids, found = msgID ∨
      ∃ worker, state.workers id = some worker ∧ found ∈ worker.ids)
    (hname : ∀ queueName, state.queues.lookup queueName = some id →
      new.queueName = queueName)
    (hok : state.WorkerOk new) : (state.setWorker id new).Once := by
  have hapart : ∀ other worker, other ≠ id → state.workers other = some worker →
      ∀ found ∈ new.ids, found ∉ worker.ids := by
    intro other worker hother hworker found hfound hmem
    rcases hids found hfound with rfl | ⟨own, hown, hownMem⟩
    · exact hnew other worker hworker hmem
    · exact hother (honce.apart other id worker own hworker hown found hmem hownMem)
  refine { honce with bounded := ?_, registered := ?_, workers := ?_, apart := ?_,
                      feeders := ?_ }
  · intro other found hfound
    rcases found_of_setWorker hfound with ⟨rfl, _⟩ | ⟨_, hfound⟩
    · exact hbound
    · exact honce.bounded other found hfound
  · intro queueName other found hqueue hfound
    rcases found_of_setWorker hfound with ⟨rfl, rfl⟩ | ⟨_, hfound⟩
    · exact hname queueName hqueue
    · exact honce.registered queueName other found hqueue hfound
  · intro other found hfound
    rcases found_of_setWorker hfound with ⟨_, rfl⟩ | ⟨_, hfound⟩
    · exact hok.frame rfl rfl rfl rfl
    · exact (honce.workers other found hfound).frame rfl rfl rfl rfl
  · intro first second firstWorker secondWorker hfirst hsecond found hmem hother
    rcases found_of_setWorker hfirst with ⟨rfl, rfl⟩ | ⟨hfirstNe, hfirst⟩
    · rcases found_of_setWorker hsecond with ⟨rfl, rfl⟩ | ⟨hsecondNe, hsecond⟩
      · rfl
      · exact absurd hother (hapart second _ hsecondNe hsecond found hmem)
    · rcases found_of_setWorker hsecond with ⟨rfl, rfl⟩ | ⟨_, hsecond⟩
      · exact absurd hmem (hapart first firstWorker hfirstNe ‹_› found hother)
      · exact honce.apart first second _ _ hfirst hsecond found hmem hother
  · intro other feeder hfeeder
    exact (honce.feeders other feeder hfeeder).frame rfl rfl

theorem Once.mark {state : Delivery} (honce : state.Once) (msgID : GoString) :
    ({ state with inFlightMsgs := insert msgID state.inFlightMsgs } : Delivery).Once := by
  have hretains := Retains.refl state.used state.store
  refine { honce with workers := ?_, feeders := ?_, settled := ?_ }
  · intro id worker hworker
    have hok := honce.workers id worker hworker
    exact hok.mono (fun _ hmem => Finset.mem_insert_of_mem (hok.mem_inFlight hmem))
      (fun _ _ => rfl) (Finset.Subset.refl _) hretains
  · intro id feeder hfeeder
    exact (honce.feeders id feeder hfeeder).mono (Finset.Subset.refl _) hretains
  · intro found name hpositive
    obtain ⟨hused, hcase⟩ := honce.settled found name hpositive
    exact ⟨hused, hcase.imp_left Finset.mem_insert_of_mem⟩

theorem WorkerOk.enqueue {state : Delivery} {worker : Worker} (hok : state.WorkerOk worker)
    {msg : QueueMsg} (hunplaced : msg.msgID ∉ worker.ids)
    (hinFlight : msg.msgID ∈ state.inFlightMsgs)
    (hfollows : state.Follows worker.queueName msg.msgID msg.subList msg.ackedSubs)
    (hundelivered : ∀ name, ¬ 0 < state.delivered msg.msgID name) :
    state.WorkerOk { worker with buffer := worker.buffer ++ [msg] } where
  nodup := by
    rw [Worker.ids_enqueue]
    refine hok.nodup.append (List.nodup_singleton _) ?_
    intro found hold hnew
    exact hunplaced (List.mem_singleton.mp hnew ▸ hold)
  inFlight := by
    intro found hfound
    rw [Worker.items_enqueue] at hfound
    rcases List.mem_append.mp hfound with hold | hnew
    · exact hok.inFlight found hold
    · exact List.mem_singleton.mp hnew ▸ hinFlight
  follows := by
    intro found hfound
    rw [Worker.items_enqueue] at hfound
    rcases List.mem_append.mp hfound with hold | hnew
    · exact hok.follows found hold
    · exact List.mem_singleton.mp hnew ▸ hfollows
  buffer := by
    intro found hfound name hpositive
    rcases List.mem_append.mp hfound with hold | hnew
    · exact hok.buffer found hold name hpositive
    · rw [List.mem_singleton.mp hnew] at hpositive
      exact absurd hpositive (hundelivered name)
  phase := hok.phase

theorem Once.register {state : Delivery} (honce : state.Once) (queueName : GoString) :
    ({ state with
      queues := state.queues.insert queueName state.workerCount
      workerCount := state.workerCount + 1 } : Delivery).Once := by
  refine { honce with
    bounded := fun id worker hworker => Nat.lt_succ_of_lt (honce.bounded id worker hworker)
    created := ?_
    registered := ?_
    workers := fun id worker hworker =>
      (honce.workers id worker hworker).frame rfl rfl rfl rfl
    feeders := fun id feeder hfeeder => (honce.feeders id feeder hfeeder).frame rfl rfl }
  · intro name id hname
    rw [GoMap.lookup_insert_eq] at hname
    split_ifs at hname
    · cases hname
      exact Nat.lt_succ_self _
    · exact Nat.lt_succ_of_lt (honce.created name id hname)
  · intro name id worker hname hworker
    rw [GoMap.lookup_insert_eq] at hname
    split_ifs at hname
    · cases hname
      exact absurd (honce.bounded _ worker hworker) (Nat.lt_irrefl _)
    · exact honce.registered name id worker hname hworker

theorem Once.schedule {state : Delivery} (honce : state.Once) {queueName : GoString}
    {msg : MessageInfo}
    (hfollows : state.Follows queueName msg.msgID msg.subList msg.ackedSubs.toFinset)
    (hpresentable : state.Presentable queueName msg) :
    (state.schedule queueName msg).Once := by
  have hscheduled := scheduled_schedule state queueName msg
  generalize state.schedule queueName msg = next at hscheduled ⊢
  have hmarked := honce.mark msg.msgID
  have hinFlight : msg.msgID ∈ insert msg.msgID state.inFlightMsgs :=
    Finset.mem_insert_self _ _
  have hundelivered : msg.msgID ∉ state.inFlightMsgs → msg.pendingSubs.len ≠ 0 →
      ∀ name, ¬ 0 < state.delivered msg.msgID name := by
    intro hfresh hpending name hpositive
    obtain ⟨held, hheld⟩ := holdsMsg_iff.mp
      ((hpresentable.resolve_left hfresh).resolve_left hpending)
    rcases (honce.settled msg.msgID name hpositive).2 with hmem | hgone
    · exact hfresh hmem
    · exact hgone queueName held hheld
  have hunplaced : msg.msgID ∉ state.inFlightMsgs →
      ∀ id worker, state.workers id = some worker → msg.msgID ∉ worker.ids :=
    fun hfresh id worker hworker hmem =>
      hfresh ((honce.workers id worker hworker).mem_inFlight hmem)
  cases hscheduled with
  | dropped => exact honce
  | missing => exact hmarked
  | @joined hfresh hpending id worker hqueue hworker =>
      have hname := honce.registered queueName id worker hqueue hworker
      refine hmarked.place (honce.bounded id worker hworker) (hunplaced hfresh) ?_ ?_ ?_
      · intro found hfound
        rw [Worker.ids_enqueue] at hfound
        rcases List.mem_append.mp hfound with hold | hnew
        · exact .inr ⟨worker, hworker, hold⟩
        · exact .inl (List.mem_singleton.mp hnew)
      · exact fun other hother => honce.registered other id worker hother hworker
      · refine (hmarked.workers id worker hworker).enqueue
          (hunplaced hfresh id worker hworker) hinFlight ?_ (hundelivered hfresh hpending)
        rw [hname]
        exact { hfollows with }
  | @created hfresh hpending stopCh hstopCh hqueue =>
      refine (hmarked.register queueName).place (Nat.lt_succ_self _) (hunplaced hfresh)
        ?_ ?_ ?_
      · exact fun found hfound => .inl (List.mem_singleton.mp hfound)
      · intro name hname
        rw [GoMap.lookup_insert_eq] at hname
        split_ifs at hname with hsame
        · exact hsame.symm
        · exact absurd (honce.created name _ hname) (Nat.lt_irrefl _)
      · have hempty : (Delivery.WorkerOk { state with
            inFlightMsgs := insert msg.msgID state.inFlightMsgs
            queues := state.queues.insert queueName state.workerCount
            workerCount := state.workerCount + 1 }
              { queueName, stopCh, tenure := state.tenure, buffer := [], phase := .starting }) :=
          { nodup := List.nodup_nil
            inFlight := fun _ hmem => absurd hmem List.not_mem_nil
            follows := fun _ hmem => absurd hmem List.not_mem_nil
            buffer := fun _ hmem => absurd hmem List.not_mem_nil
            phase := trivial }
        exact hempty.enqueue List.not_mem_nil hinFlight { hfollows with }
          (hundelivered hfresh hpending)

theorem Once.setFeeder {state : Delivery} (honce : state.Once) {id : Nat}
    {feeder : Option Feeder} (hok : ∀ found ∈ feeder, state.FeederOk found) :
    (state.setFeeder id feeder).Once := by
  refine { honce with
    workers := fun other worker hworker =>
      (honce.workers other worker hworker).frame rfl rfl rfl rfl
    feeders := ?_ }
  intro other found hfound
  by_cases hother : other = id
  · subst hother
    simp only [Delivery.setFeeder, Function.update_self] at hfound
    exact (hok found hfound).frame rfl rfl
  · simp only [Delivery.setFeeder, Function.update_of_ne hother] at hfound
    exact (honce.feeders other found hfound).frame rfl rfl

theorem Once.setStore {state : Delivery} (honce : state.Once) {store : InMemoryStorage}
    {used : Finset GoString} (hused : state.used ⊆ used)
    (hstore : store.Outstanding used)
    (hretains : state.store.Retains state.used store) :
    ({ state with store, used } : Delivery).Once := by
  refine { honce with store := hstore, workers := ?_, feeders := ?_, settled := ?_ }
  · intro id worker hworker
    have hok := honce.workers id worker hworker
    exact hok.mono (fun _ hmem => hok.mem_inFlight hmem) (fun _ _ => rfl) hused hretains
  · intro id feeder hfeeder
    exact (honce.feeders id feeder hfeeder).mono hused hretains
  · intro msgID name hpositive
    obtain ⟨hmsgUsed, hcase⟩ := honce.settled msgID name hpositive
    refine ⟨hused hmsgUsed, hcase.imp_right ?_⟩
    intro hgone queueName msg hholds
    obtain ⟨before, hbefore, _⟩ := hretains queueName msgID msg hholds hmsgUsed
    exact hgone queueName before hbefore

theorem follows_of_pendingMessages {state : Delivery}
    (hstore : state.store.Outstanding state.used) {queueName : GoString}
    {msg : MessageInfo}
    (hmem : msg ∈ (state.store.pendingMessages queueName).toOption.getD []) :
    state.Follows queueName msg.msgID msg.subList msg.ackedSubs.toFinset := by
  unfold InMemoryStorage.pendingMessages at hmem
  cases hqueue : state.store.queues.lookup queueName with
  | none => simp [hqueue, Except.toOption] at hmem
  | some queue =>
      simp only [hqueue, Except.toOption, Option.getD_some, messagesInOrder,
        QueueState.inOrder, List.mem_map, List.mem_insertionSort] at hmem
      obtain ⟨held, ⟨entry, hentry, rfl⟩, rfl⟩ := hmem
      have hlookup := (sortedEntries_enumerates queue.messages).lookup_of_mem hentry
      have hholds : state.store.Holds queueName entry.1 entry.2 := ⟨queue, hqueue, hlookup⟩
      have hid := hstore.msgID _ _ _ hholds
      refine ⟨?_, hstore.subList _ _ _ hholds, ?_⟩
      · rw [toMessageInfo, hid]
        exact hstore.used _ _ _ hholds
      · intro name found hfound
        rw [toMessageInfo, hid] at hfound
        obtain rfl := hstore.unique _ _ _ _ _ hholds hfound
        obtain ⟨foundQueue, hfoundQueue, hfoundLookup⟩ := hfound
        cases hqueue.symm.trans hfoundQueue
        cases hlookup.symm.trans hfoundLookup
        simp [toMessageInfo]

theorem Once.of_feederStep {state next : Delivery} (honce : state.Once) {id : Nat}
    {feeder : Feeder} (hfeeder : state.feeders id = some feeder) {action : FeederAction}
    (hcurrent : state.Current (.feeder id action))
    (hstep : FeederStep state id feeder action next) : next.Once := by
  have hok := honce.feeders id feeder hfeeder
  cases hstep with
  | @refused queueName msgID payload subList hfresh =>
      have hused : state.used ⊆ insert msgID state.used := Finset.subset_insert _ _
      exact (honce.setStore hused (honce.store.mono hused) (.refl _ _)).setFeeder (by simp)
  | @commit queueName msgID payload subList msg store hfresh henqueue =>
      have hnotHeld : ∀ held, ¬ state.store.Holds queueName msgID held :=
        fun held hholds => hfresh (honce.store.used _ _ _ hholds)
      have hcommitted := honce.setStore (Finset.subset_insert _ _)
        (honce.store.enqueue hfresh hok henqueue) (retains_of_enqueue hfresh henqueue)
      refine hcommitted.setFeeder ?_
      rintro found hfound
      cases hfound
      rw [info_of_enqueue hnotHeld henqueue]
      refine ⟨Finset.mem_insert_self _ _, hok, ?_⟩
      intro name held hholds
      rcases holds_of_enqueue henqueue hholds with hbefore | ⟨rfl, _, rfl, _⟩
      · exact absurd (honce.store.used _ _ _ hbefore) hfresh
      · refine ⟨rfl, rfl, ?_⟩
        simp [toMessageInfo, newMessage]
  | handOver =>
      exact (honce.schedule hok (hcurrent _ hfeeder _ rfl)).setFeeder (by simp)
  | readNames => exact honce.setFeeder (by simp [FeederOk])
  | readPending =>
      refine honce.setFeeder ?_
      rintro found hfound
      cases hfound
      exact fun msg hmem => follows_of_pendingMessages honce.store hmem
  | @sweep queueName msg msgs queueNames =>
      have hnext := honce.schedule (hok msg List.mem_cons_self) (hcurrent _ hfeeder _ rfl)
      obtain ⟨hstore, hused⟩ := schedule_store state queueName msg
      refine hnext.setFeeder ?_
      rintro found hfound
      cases hfound
      have hrest : state.FeederOk (.sweeping queueName msgs queueNames) :=
        fun later hmem => hok later (List.mem_cons_of_mem _ hmem)
      exact hrest.frame hused hstore

theorem Once.of_stepped {state next : Delivery} (honce : state.Once)
    {event : DeliveryEvent} (htenure : inTenure event = true)
    (hcurrent : state.Current event) (hstep : Stepped state event next) : next.Once := by
  cases hstep with
  | tenure hleadership hstep => cases event <;> contradiction
  | replicate =>
      obtain ⟨hstore, hretains⟩ := FSM.outstanding_applyCommand honce.store htenure 0
      exact honce.setStore (Finset.Subset.refl _) hstore hretains
  | fetch hfree hsubs =>
      obtain ⟨queue, hqueue, rfl⟩ := Option.map_eq_some_iff.mp hsubs
      refine honce.setFeeder ?_
      rintro found hfound
      cases hfound
      exact honce.store.subs _ queue hqueue
  | tick hfree => exact honce.setFeeder (by simp [FeederOk])
  | feeder hfeeder hstep => exact honce.of_feederStep hfeeder hcurrent hstep
  | worker hworker hstep => exact honce.of_workerStep hworker htenure hstep

theorem once_tenureStart {store : InMemoryStorage} {used : Finset GoString}
    (hstore : store.Outstanding used) : (tenureStart store used).Once where
  leading := rfl
  store := hstore
  bounded := fun _ _ hworker => by cases hworker
  created := fun _ _ hqueue => by simp [tenureStart, initial] at hqueue
  registered := fun _ _ _ _ hworker => by cases hworker
  workers := fun _ _ hworker => by cases hworker
  apart := fun _ _ _ _ hworker => by cases hworker
  feeders := by
    intro id feeder hfeeder
    by_cases hid : id = 0
    · subst hid
      cases hfeeder
      trivial
    · simp [tenureStart, Function.update_of_ne hid] at hfeeder
  once := fun _ _ => Nat.zero_le 1
  settled := fun _ _ hpositive => absurd hpositive (Nat.lt_irrefl 0)

/-- Within a tenure in which no stale copy is scheduled, no subscriber gets a message
twice. -/
theorem delivered_at_most_once {store : InMemoryStorage} {used : Finset GoString}
    (hstore : store.Outstanding used) {events : List DeliveryEvent} {state : Delivery}
    (htenure : ∀ event ∈ events, inTenure event = true)
    (hcurrent : Meets step Current (tenureStart store used) events)
    (hexec : exec step (tenureStart store used) events = some state)
    (msgID subName : GoString) : state.delivered msgID subName ≤ 1 := by
  have hmeets := (meets_of_forall htenure (tenureStart store used)).and hcurrent
  have honce : state.Once :=
    exec_invariant
      (fun honce hcondition hstep =>
        Once.of_stepped honce hcondition.1 hcondition.2 (stepped_of_step hstep))
      (once_tenureStart hstore) hmeets hexec
  exact honce.once msgID subName

/-! One queue with one subscriber, and a handler that races with the promotion
sweep for the same message. -/

def samplePut : Command :=
  .newPutSubPolicy (lit "orders") (billingPolicy 3)

def sampleStore : InMemoryStorage :=
  (FSM.applyCommand 0 (FSM.applyCommand 0 .empty (.newCreateQueue (lit "orders"))).2
    samplePut).2

theorem outstanding_sampleStore : sampleStore.Outstanding ∅ := by
  have hcreated : InMemoryStorage.Outstanding
      (FSM.applyCommand 0 .empty (.newCreateQueue (lit "orders"))).2 ∅ :=
    (FSM.outstanding_applyCommand outstanding_empty rfl 0).1
  exact (FSM.outstanding_applyCommand hcreated rfl 0).1

/-- The handler commits its message; the sweep finds and schedules it. -/
def sweepFirst : List DeliveryEvent :=
  [.fetch 1 (lit "orders"), .feeder 1 (.commit (lit "orders-1") (lit "order 1")),
    .feeder 0 .readNames, .feeder 0 .readPending, .feeder 0 .schedule]

def deliversTo (worker : Nat) : List DeliveryEvent :=
  [.worker worker .checkRun, .worker worker .pop,
    .worker worker (.result (lit "billing") true)]

/-- The rest of the pass: the ack, and the message is forgotten. -/
def settlesBy (worker : Nat) : List DeliveryEvent :=
  [.worker worker .collect, .worker worker .checkProcess, .worker worker (.ack true),
    .worker worker .finish]

/-- The handler schedules its copy after the message was delivered, settled and
forgotten, and the subscriber gets it again. -/
theorem handler_redelivers_settled_message :
    sampleStore.Outstanding ∅ ∧
      (∀ event ∈ sweepFirst ++ deliversTo 0 ++ settlesBy 0 ++
        .feeder 1 .schedule :: deliversTo 0, inTenure event = true) ∧
      (exec step (tenureStart sampleStore ∅)
        (sweepFirst ++ deliversTo 0 ++ settlesBy 0 ++
          .feeder 1 .schedule :: deliversTo 0)).map
        (fun state => state.delivered (lit "orders-1") (lit "billing")) = some 2 :=
  ⟨outstanding_sampleStore, by decide +kernel, by decide +kernel⟩

/-- The same race when the handler comes while the message is being worked on. -/
theorem handler_loses_race_to_sweep :
    ∃ state, exec step (tenureStart sampleStore ∅)
        (sweepFirst ++ deliversTo 0 ++ .feeder 1 .schedule :: settlesBy 0) = some state ∧
      0 < state.delivered (lit "orders-1") (lit "billing") ∧
      state.delivered (lit "orders-1") (lit "billing") ≤ 1 := by
  have hdelivered : (exec step (tenureStart sampleStore ∅)
      (sweepFirst ++ deliversTo 0 ++ .feeder 1 .schedule :: settlesBy 0)).map
      (fun state => decide (0 < state.delivered (lit "orders-1") (lit "billing"))) =
        some true := by
    decide +kernel
  obtain ⟨state, hexec, hpositive⟩ := Option.map_eq_some_iff.mp hdelivered
  exact ⟨state, hexec, of_decide_eq_true hpositive,
    delivered_at_most_once outstanding_sampleStore (by decide +kernel)
      (by decide +kernel) hexec _ _⟩

end SimonMQ.Dist.Delivery
