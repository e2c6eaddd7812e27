import SimonMQ.Dist.Attended
import SimonMQ.Dist.ForCause
import SimonMQ.Dist.Snapshot

namespace SimonMQ.Dist

open SimonMQ.Go
open SimonMQ.Attempts (Attempt)

/-! A sweep finds every message that is owed.  Its copies may be stale, and workers of
earlier tenures may still be at it, but an id leaves the dedupe set only once the store
has dropped the message. -/

/-! ### Copies and the store -/

/-- A copy that is not ahead of the store. -/
def Trails (store : InMemoryStorage) (queueName msgID : GoString) (subList : GoMap SubPolicy)
    (acked : Finset GoString) : Prop :=
  ∀ held, store.Holds queueName msgID held →
    held.subList = subList ∧ acked ⊆ held.ackedSubs

section Copies

variable {store next : InMemoryStorage} {queueName msgID : GoString}
  {subList : GoMap SubPolicy} {acked : Finset GoString}

theorem Trails.retain {used : Finset GoString}
    (htrails : Trails store queueName msgID subList acked)
    (hretains : store.Retains used next) (hused : msgID ∈ used) :
    Trails next queueName msgID subList acked := by
  intro held hheld
  obtain ⟨before, hbefore, hsubList, hacked⟩ := hretains queueName msgID held hheld hused
  obtain ⟨hsame, hsubset⟩ := htrails before hbefore
  exact ⟨hsubList.trans hsame, hsubset.trans hacked⟩

theorem Trails.not_holds {used : Finset GoString}
    (htrails : Trails store queueName msgID subList acked) (hstore : store.Outstanding used)
    (hall : subList.len ≤ acked.card) (held : MessageState) :
    ¬ store.Holds queueName msgID held := by
  intro hheld
  obtain ⟨rfl, hsubset⟩ := htrails held hheld
  have howed := hstore.owed queueName msgID held hheld
  have hcard := Finset.card_le_card hsubset
  omega

theorem Trails.union {more : Finset GoString}
    (htrails : Trails store queueName msgID subList acked)
    (hmore : Trails store queueName msgID subList more) :
    Trails store queueName msgID subList (acked ∪ more) := by
  intro held hheld
  obtain ⟨hsame, hsubset⟩ := htrails held hheld
  exact ⟨hsame, Finset.union_subset hsubset (hmore held hheld).2⟩

theorem trails_of_ack {subNames : List GoString}
    (htrails : Trails store queueName msgID subList acked)
    (hnames : ∀ name ∈ subNames, name ∈ subList.keys) :
    Trails (store.ack queueName msgID subNames) queueName msgID subList
      subNames.toFinset := by
  intro held hheld
  rcases InMemoryStorage.holds_of_ack hheld with
    ⟨_, hother⟩ | ⟨earlier, hearlier, _, _, rfl, _⟩
  · exact absurd rfl (hother rfl)
  · obtain ⟨hsame, _⟩ := htrails earlier hearlier
    refine ⟨hsame, fun name hname => ?_⟩
    rw [List.mem_toFinset] at hname
    refine Finset.mem_union_right _ (List.mem_toFinset.mpr (List.mem_filter.mpr ⟨hname, ?_⟩))
    rw [hsame]
    simpa using hnames name hname

theorem trails_of_enqueue {payload : GoString} {info : MessageInfo}
    (hfresh : ∀ held, ¬ store.Holds queueName msgID held)
    (hnext : store.enqueue queueName msgID payload subList = .ok (info, next)) :
    Trails next queueName info.msgID info.subList info.ackedSubs.toFinset := by
  rw [InMemoryStorage.info_of_enqueue hfresh hnext]
  intro held hheld
  rcases InMemoryStorage.holds_of_enqueue hnext hheld with hbefore | ⟨_, _, rfl, _⟩
  · exact absurd hbefore (hfresh held)
  · exact ⟨rfl, by simp [toMessageInfo, InMemoryStorage.newMessage]⟩

theorem mem_pendingMessages {held : MessageState} (hheld : store.Holds queueName msgID held) :
    toMessageInfo held ∈ (store.pendingMessages queueName).toOption.getD [] := by
  obtain ⟨queue, hqueue, hlookup⟩ := hheld
  have hentry := ((sortedEntries_enumerates queue.messages).2 msgID held).mpr hlookup
  simp only [InMemoryStorage.pendingMessages, hqueue, Except.toOption, Option.getD_some,
    messagesInOrder, QueueState.inOrder, List.mem_map, List.mem_insertionSort]
  exact ⟨held, ⟨_, hentry, rfl⟩, rfl⟩

theorem trails_of_pendingMessages {used : Finset GoString} (hstore : store.Outstanding used)
    {msg : MessageInfo} (hmem : msg ∈ (store.pendingMessages queueName).toOption.getD []) :
    Trails store queueName msg.msgID msg.subList msg.ackedSubs.toFinset := by
  obtain ⟨shown, ⟨queue, hqueue, hlookup⟩, rfl⟩ := holds_of_mem_pendingMessages hstore hmem
  rintro held ⟨found, hfound, hfoundLookup⟩
  rw [hqueue] at hfound
  cases hfound
  rw [hlookup] at hfoundLookup
  cases hfoundLookup
  simp [toMessageInfo]

end Copies

/-! ### A node -/

def WorkerPhase.Trailing (store : InMemoryStorage) (queueName : GoString) :
    WorkerPhase → Prop
  | .dropping msg => msg.pendingSubs.len = 0
  | .collected msg finished | .acking msg finished =>
      ∀ name ∈ finished, name ∈ msg.subList.keys
  | .acked msg finished => Trails store queueName msg.msgID msg.subList finished.toFinset
  | .starting | .popping | .waiting | .sending _ _ _ | .rejected _ | .returned => True

structure Worker.Trailing (store : InMemoryStorage) (worker : Worker) : Prop where
  items : ∀ msg ∈ worker.items,
    Trails store worker.queueName msg.msgID msg.subList msg.ackedSubs
  phase : worker.phase.Trailing store worker.queueName

def Feeder.Trailing (store : InMemoryStorage) : Feeder → Prop
  | .committed queueName msg =>
      Trails store queueName msg.msgID msg.subList msg.ackedSubs.toFinset
  | .sweeping queueName msgs _ => ∀ msg ∈ msgs,
      Trails store queueName msg.msgID msg.subList msg.ackedSubs.toFinset
  | .fetched _ _ | .starting => True

/-- No copy in the node's memory is ahead of the store. -/
structure Delivery.Trailing (store : InMemoryStorage) (state : Delivery) : Prop where
  workers : ∀ id worker, state.workers id = some worker → worker.Trailing store
  feeders : ∀ id feeder, state.feeders id = some feeder → feeder.Trailing store

theorem mem_publishedIDs {log : List Command} {queueName msgID : GoString}
    {subList : GoMap SubPolicy} (hpublished : Published log queueName msgID subList) :
    msgID ∈ (publishedIDs log).toFinset := by
  obtain ⟨cmd, hmem, htype, _, rfl, _⟩ := hpublished
  rw [List.mem_toFinset]
  exact List.mem_map_of_mem (List.mem_filter.mpr ⟨hmem, by simpa using htype⟩)

theorem Worker.Trailing.move {store : InMemoryStorage} {worker : Worker}
    (htrailing : worker.Trailing store) {buffer : List QueueMsg} {phase : WorkerPhase}
    (hitems : ∀ msg ∈ phase.msg?.toList ++ buffer, msg ∈ worker.items ∨
      Trails store worker.queueName msg.msgID msg.subList msg.ackedSubs)
    (hphase : phase.Trailing store worker.queueName) :
    Worker.Trailing store { worker with buffer, phase } where
  items := fun msg hmem => (hitems msg hmem).elim (htrailing.items msg) id
  phase := hphase

namespace Delivery

variable {state next : Delivery} {store : InMemoryStorage} {log : List Command}
  {history : List (Attempt Share)}

theorem trailing_initial (store own : InMemoryStorage) :
    ({ Delivery.initial with store := own } : Delivery).Trailing store where
  workers := fun _ _ hworker => by cases hworker
  feeders := fun _ _ hfeeder => by cases hfeeder

theorem Trailing.retain (htrailing : state.Trailing store) (hcausal : state.Causal log history)
    {later : InMemoryStorage} (hretains : store.Retains (publishedIDs log).toFinset later) :
    state.Trailing later where
  workers := by
    intro id worker hworker
    have htracked := hcausal.workers id worker hworker
    obtain ⟨hitems, hphase⟩ := htrailing.workers id worker hworker
    constructor
    · intro msg hmem
      exact (hitems msg hmem).retain hretains
        (mem_publishedIDs (htracked.items msg hmem).published)
    · cases hcurrent : worker.phase with
      | acked msg finished =>
          rw [hcurrent] at hphase
          have hmem : msg ∈ worker.items := by
            simp [Worker.items, hcurrent, WorkerPhase.msg?]
          exact Trails.retain hphase hretains
            (mem_publishedIDs (htracked.items msg hmem).published)
      | starting | popping | waiting | dropping | sending | collected | acking | rejected
      | returned =>
          rw [hcurrent] at hphase
          exact hphase
  feeders := by
    intro id feeder hfeeder
    have htracked := hcausal.feeders id feeder hfeeder
    have htrails := htrailing.feeders id feeder hfeeder
    cases feeder with
    | fetched | starting => trivial
    | committed queueName msg =>
        exact Trails.retain htrails hretains (mem_publishedIDs htracked)
    | sweeping queueName msgs queueNames =>
        exact fun msg hmem => (htrails msg hmem).retain hretains
          (mem_publishedIDs (htracked msg hmem))

theorem Trailing.of_same (htrailing : state.Trailing store)
    (hworkers : next.workers = state.workers) (hfeeders : next.feeders = state.feeders) :
    next.Trailing store where
  workers := by
    rw [hworkers]
    exact htrailing.workers
  feeders := by
    rw [hfeeders]
    exact htrailing.feeders

theorem Trailing.setWorker (htrailing : state.Trailing store) {id : Nat} {worker : Worker}
    (hworker : worker.Trailing store) : (state.setWorker id worker).Trailing store where
  workers := by
    intro other found hfound
    rcases found_of_setWorker hfound with ⟨_, rfl⟩ | ⟨_, hfound⟩
    · exact hworker
    · exact htrailing.workers other found hfound
  feeders := htrailing.feeders

theorem Trailing.setFeeder (htrailing : state.Trailing store) {id : Nat}
    {feeder : Option Feeder} (hfeeder : ∀ found ∈ feeder, found.Trailing store) :
    (state.setFeeder id feeder).Trailing store where
  workers := htrailing.workers
  feeders := by
    intro other found hfound
    simp only [Delivery.setFeeder, Function.update_apply] at hfound
    split_ifs at hfound
    · exact hfeeder found hfound
    · exact htrailing.feeders other found hfound

theorem Trailing.of_workerStep (hbefore : state.Trailing state.store)
    (htrailing : state.Trailing next.store) (hcausal : state.Causal log history) {id : Nat}
    {worker : Worker} (hworker : state.workers id = some worker) {action : WorkerAction}
    (hstep : WorkerStep state id worker action next) : next.Trailing next.store := by
  have hold := htrailing.workers id worker hworker
  have hphase := hold.phase
  have hitem : ∀ msg, worker.phase.msg? = some msg → msg ∈ worker.items := by
    intro msg hmsg
    simp [items_of_phase hmsg]
  have hbuffer : ∀ msg ∈ worker.buffer, msg ∈ worker.items :=
    fun msg hmem => List.mem_append_right _ hmem
  cases hstep with
  | exit | enter | sleep | wake | discard =>
      refine htrailing.setWorker (hold.move ?_ trivial)
      exact fun msg hmem => .inl (hbuffer msg hmem)
  | drop | forget =>
      have hbase : ∀ msgID, (state.forget msgID).Trailing state.store :=
        fun _ => htrailing.of_same rfl rfl
      refine (hbase _).setWorker (hold.move ?_ trivial)
      exact fun msg hmem => .inl (hbuffer msg hmem)
  | @popSettled msg buffer hpopping hhead hsettled =>
      refine htrailing.setWorker (hold.move ?_ hsettled)
      exact fun msg hmem => .inl (hbuffer msg (hhead ▸ hmem))
  | @popPending msg buffer hpopping hhead =>
      refine htrailing.setWorker (hold.move ?_ trivial)
      exact fun msg hmem => .inl (hbuffer msg (hhead ▸ hmem))
  | @result msg answered results subName policy ok hsending =>
      have hnew : Worker.Trailing state.store { worker with
          phase := .sending msg (insert subName answered)
            (results ++ [{ subName := policy.subName, ok }]) } := by
        refine (hbefore.workers id worker hworker).move (fun other hmem => ?_) trivial
        left
        simpa [Worker.items, hsending, WorkerPhase.msg?] using hmem
      cases ok with
      | true =>
          have hdelivered : (state.deliver msg.msgID subName).Trailing state.store :=
            hbefore.of_same rfl rfl
          exact hdelivered.setWorker hnew
      | false => exact hbefore.setWorker hnew
  | @collect msg answered results hsending =>
      have hanswered := (hcausal.workers id worker hworker).phase
      rw [hsending] at hanswered
      refine htrailing.setWorker (hold.move ?_ ?_)
      · intro other hmem
        rcases List.mem_cons.mp hmem with rfl | hmem
        · exact .inr (hold.items msg (hitem msg (by rw [hsending]; rfl)))
        · exact .inl (hbuffer other hmem)
      · intro name hname
        obtain ⟨result, hresult, rfl⟩ := QueueMsg.exists_result_of_mem_collect hname
        obtain ⟨policy, hpolicy, _⟩ := hanswered.recorded result hresult
        exact Finmap.mem_keys.mpr (Finmap.mem_iff.mpr
          ⟨policy, (QueueMsg.mem_pendingSubs.mp hpolicy).1⟩)
  | @unsettled msg finished hcollected hempty =>
      refine htrailing.setWorker (hold.move ?_ ?_)
      · intro other hmem
        left
        simpa [Worker.items, hcollected, WorkerPhase.msg?] using hmem
      · intro held hheld
        obtain ⟨hsame, _⟩ := hold.items msg (hitem msg (by rw [hcollected]; rfl)) held hheld
        exact ⟨hsame, by simp [hempty]⟩
  | @propose msg finished hcollected =>
      rw [hcollected] at hphase
      refine htrailing.setWorker (hold.move ?_ hphase)
      intro other hmem
      left
      simpa [Worker.items, hcollected, WorkerPhase.msg?] using hmem
  | @accept msg finished hacking hleading =>
      rw [hacking] at hphase
      have hbase : (state.accept worker msg finished).Trailing
          (state.store.ack worker.queueName msg.msgID finished) := htrailing.of_same rfl rfl
      have hmem := hitem msg (by rw [hacking]; rfl)
      refine hbase.setWorker (hold.move ?_ ?_)
      · intro other hmem
        left
        simpa [Worker.items, hacking, WorkerPhase.msg?] using hmem
      · exact trails_of_ack ((hbefore.workers id worker hworker).items msg hmem) hphase
  | @reject msg finished ok hacking =>
      refine htrailing.setWorker (hold.move ?_ trivial)
      intro other hmem
      left
      simpa [Worker.items, hacking, WorkerPhase.msg?] using hmem
  | @again msg finished hacked =>
      rw [hacked] at hphase
      have hmsg := hold.items msg (hitem msg (by rw [hacked]; rfl))
      refine htrailing.setWorker (hold.move ?_ trivial)
      intro other hmem
      rw [WorkerPhase.msg?, Option.toList_none, List.nil_append] at hmem
      rcases List.mem_append.mp hmem with hmem | hmem
      · exact .inl (hbuffer other hmem)
      · rw [List.mem_singleton.mp hmem]
        exact .inr (hmsg.union hphase)
  | @requeue msg hrejected =>
      refine htrailing.setWorker (hold.move ?_ trivial)
      intro other hmem
      left
      have hmsg := hitem msg (by rw [hrejected]; rfl)
      rw [WorkerPhase.msg?, Option.toList_none, List.nil_append] at hmem
      rcases List.mem_append.mp hmem with hmem | hmem
      · exact hbuffer other hmem
      · rwa [List.mem_singleton.mp hmem]

theorem Trailing.schedule (htrailing : state.Trailing store)
    (hcausal : state.Causal log history) {queueName : GoString} {msg : MessageInfo}
    (htrails : Trails store queueName msg.msgID msg.subList msg.ackedSubs.toFinset) :
    (state.schedule queueName msg).Trailing store := by
  have hscheduled := scheduled_schedule state queueName msg
  generalize state.schedule queueName msg = next at hscheduled ⊢
  cases hscheduled with
  | dropped => exact htrailing
  | missing => exact htrailing.of_same rfl rfl
  | @joined _ _ id worker hqueue hworker =>
      have hmarked : Trailing store
          { state with inFlightMsgs := insert msg.msgID state.inFlightMsgs } :=
        htrailing.of_same rfl rfl
      have hold := htrailing.workers id worker hworker
      refine hmarked.setWorker ⟨fun other hmem => ?_, hold.phase⟩
      rw [Worker.items_enqueue] at hmem
      rcases List.mem_append.mp hmem with hmem | hmem
      · exact hold.items other hmem
      · rw [List.mem_singleton.mp hmem,
          (hcausal.queues queueName id hqueue).2 worker hworker]
        exact htrails
  | created =>
      have hmarked : Trailing store { state with
          inFlightMsgs := insert msg.msgID state.inFlightMsgs
          queues := state.queues.insert queueName state.workerCount
          workerCount := state.workerCount + 1 } := htrailing.of_same rfl rfl
      refine hmarked.setWorker ⟨fun other hmem => ?_, trivial⟩
      rw [List.mem_singleton.mp hmem]
      exact htrails

theorem Trailing.of_feederStep (hbefore : state.Trailing state.store)
    (htrailing : state.Trailing next.store) (hcausal : state.Causal log history)
    (hstocked : Stocked log state.store) {id : Nat} {feeder : Feeder}
    (hfeeder : state.feeders id = some feeder) {action : FeederAction}
    (hfresh : ∀ {msgID payload}, action = .commit msgID payload → msgID ∉ publishedIDs log)
    (hstep : FeederStep state id feeder action next) : next.Trailing next.store := by
  have htrails := hbefore.feeders id feeder hfeeder
  cases hstep with
  | @refused queueName msgID payload subList hunused =>
      have hused : Trailing state.store { state with used := insert msgID state.used } :=
        hbefore.of_same rfl rfl
      exact hused.setFeeder (by simp)
  | @commit queueName msgID payload subList msg store hunused henqueue =>
      have hstored : Trailing store { state with used := insert msgID state.used, store } :=
        htrailing.of_same rfl rfl
      refine hstored.setFeeder ?_
      rintro found hfound
      cases hfound
      refine trails_of_enqueue (fun held hheld => hfresh rfl ?_) henqueue
      exact List.mem_toFinset.mp (hstocked.outstanding.used _ _ _ hheld)
  | @handOver queueName msg =>
      have hsame := (schedule_store state queueName msg).1
      refine Trailing.setFeeder ?_ (by simp)
      have hscheduled := hbefore.schedule hcausal htrails
      exact hsame ▸ hscheduled
  | readNames => exact hbefore.setFeeder (by simp [Feeder.Trailing])
  | readPending =>
      refine hbefore.setFeeder ?_
      rintro found hfound
      cases hfound
      exact fun msg hmem => trails_of_pendingMessages hstocked.outstanding hmem
  | @sweep queueName msg msgs queueNames =>
      have hscheduled := hbefore.schedule hcausal (htrails msg List.mem_cons_self)
      have hkept : (((state.schedule queueName msg).setFeeder id
          (some (.sweeping queueName msgs queueNames))) : Delivery).Trailing state.store := by
        refine hscheduled.setFeeder ?_
        rintro found hfound
        cases hfound
        exact fun later hmem => htrails later (List.mem_cons_of_mem _ hmem)
      have hsame := (schedule_store state queueName msg).1
      exact hsame ▸ hkept

theorem Trailing.step (hbefore : state.Trailing state.store)
    (htrailing : state.Trailing next.store) (hcausal : state.Causal log history)
    (hstocked : Stocked log state.store) {event : DeliveryEvent}
    (hfresh : ∀ cmd, state.proposal event = some cmd → cmd.type = .enqueue →
      cmd.msgID ∉ publishedIDs log)
    (hstep : state.step event = some next) : next.Trailing next.store := by
  cases stepped_of_step hstep with
  | tenure hleadership htenure =>
      cases htenure with
      | gain | lose | advance | demote => exact hbefore.of_same rfl rfl
      | openTenure =>
          have hopened : Trailing state.store { state with
              runPhase := .waiting
              stopCh := some state.channels
              channels := state.channels + 1 } := hbefore.of_same rfl rfl
          exact hopened.setFeeder (by simp [Feeder.Trailing])
  | replicate => exact htrailing.of_same rfl rfl
  | fetch | tick => exact hbefore.setFeeder (by simp [Feeder.Trailing])
  | @feeder id feeder action _ hfeeder hfeederStep =>
      refine hbefore.of_feederStep htrailing hcausal hstocked hfeeder ?_ hfeederStep
      rintro msgID payload rfl
      obtain ⟨_, _, _, hproposal, _⟩ := published_of_commit hstep
      exact hfresh _ hproposal rfl
  | worker hworker hworkerStep =>
      exact hbefore.of_workerStep htrailing hcausal hworker hworkerStep

end Delivery

/-! ### The sweep -/

/-- The sweep has yet to come to the message. -/
def Feeder.Ahead (queueName msgID : GoString) : Feeder → Prop
  | .starting => True
  | .sweeping swept msgs queueNames =>
      queueName ∈ queueNames ∨
        swept = queueName ∧ ∃ msg ∈ msgs, msg.msgID = msgID ∧ msg.pendingSubs.len ≠ 0
  | .fetched _ _ | .committed _ _ => False

namespace Delivery

variable {state next : Delivery} {log : List Command} {history : List (Attempt Share)}

/-- The message is being delivered, or this sweep will see to it. -/
def Reaches (state : Delivery) (sweep : Nat) (queueName msgID : GoString) : Prop :=
  msgID ∈ state.inFlightMsgs ∨
    ∃ feeder, state.feeders sweep = some feeder ∧ feeder.Ahead queueName msgID

theorem inFlight_subset_schedule (state : Delivery) (queueName : GoString)
    (msg : MessageInfo) :
    state.inFlightMsgs ⊆ (state.schedule queueName msg).inFlightMsgs ∧
      (state.schedule queueName msg).feeders = state.feeders := by
  have hscheduled := scheduled_schedule state queueName msg
  generalize state.schedule queueName msg = next at hscheduled ⊢
  cases hscheduled with
  | dropped => exact ⟨Finset.Subset.refl _, rfl⟩
  | missing | joined | created => exact ⟨Finset.subset_insert _ _, rfl⟩

theorem mem_inFlight_schedule (hopen : state.stopCh.isSome = true) (queueName : GoString)
    {msg : MessageInfo} (hpending : msg.pendingSubs.len ≠ 0) :
    msg.msgID ∈ (state.schedule queueName msg).inFlightMsgs := by
  obtain ⟨stopCh, hstopCh⟩ := Option.isSome_iff_exists.mp hopen
  by_cases hknown : msg.msgID ∈ state.inFlightMsgs
  · exact (inFlight_subset_schedule state queueName msg).1 hknown
  · simp only [schedule, hstopCh, hknown, if_false, hpending, queueFor, add, setWorker]
    split <;> split <;> simp

theorem mem_inFlight_of_workerStep (htrailing : state.Trailing state.store)
    (hcausal : state.Causal log history) (hlawful : Lawful history log)
    (hstocked : Stocked log state.store) {queueName msgID : GoString} {held : MessageState}
    (hheld : state.store.Holds queueName msgID held) {id : Nat} {worker : Worker}
    (hworker : state.workers id = some worker) {action : WorkerAction}
    (hstep : WorkerStep state id worker action next) (hmem : msgID ∈ state.inFlightMsgs) :
    msgID ∈ next.inFlightMsgs := by
  have hold := htrailing.workers id worker hworker
  have hphase := hold.phase
  have hother : ∀ {msg acked}, worker.phase.msg? = some msg →
      Trails state.store worker.queueName msg.msgID msg.subList acked →
      msg.subList.len ≤ acked.card → msgID ≠ msg.msgID := by
    rintro msg acked hmsg htrails hall rfl
    have hitem : msg ∈ worker.items := by simp [items_of_phase hmsg]
    have hpublished := ((hcausal.workers id worker hworker).items msg hitem).published
    obtain ⟨rfl, _⟩ := hlawful.published_unique hpublished (hstocked.published _ _ _ hheld)
    exact htrails.not_holds hstocked.outstanding hall held hheld
  cases hstep with
  | exit | enter | sleep | popSettled | popPending | wake | collect | discard | unsettled
  | propose | accept | reject | again | requeue => exact hmem
  | @result _ _ _ _ _ ok =>
      cases ok with
      | true | false => exact hmem
  | @drop msg hdropping =>
      rw [hdropping] at hphase
      have htrails := hold.items msg (by simp [Worker.items, hdropping, WorkerPhase.msg?])
      refine Finset.mem_erase.mpr ⟨hother (by rw [hdropping]; rfl) htrails ?_, hmem⟩
      refine Finset.card_le_card fun name hname => ?_
      exact QueueMsg.len_pendingSubs_eq_zero hphase name (Finmap.mem_keys.mp hname)
  | @forget msg finished hacked hdone =>
      rw [hacked] at hphase
      have htrails := hold.items msg (by simp [Worker.items, hacked, WorkerPhase.msg?])
      have hall : msg.subList.len ≤ (msg.ackedSubs ∪ finished.toFinset).card :=
        of_decide_eq_true hdone
      have hne : msgID ≠ msg.msgID :=
        hother (by rw [hacked]; rfl) (htrails.union hphase) hall
      exact Finset.mem_erase.mpr ⟨hne, hmem⟩

theorem pendingSubs_of_owed {used : Finset GoString} {store : InMemoryStorage}
    (hstore : store.Outstanding used) {queueName msgID : GoString} {held : MessageState}
    (hheld : store.Holds queueName msgID held) :
    (toMessageInfo held).pendingSubs.len ≠ 0 := by
  intro hzero
  have howed := hstore.owed queueName msgID held hheld
  have hall : held.subList.keys ⊆ held.ackedSubs := by
    intro name hname
    obtain ⟨policy, hpolicy⟩ := Finmap.mem_iff.mp (Finmap.mem_keys.mp hname)
    have hnone := (GoMap.len_eq_zero_iff _).mp hzero name
    by_contra hpending
    simp [MessageInfo.pendingSubs, toMessageInfo, GoMap.lookup_retain, hpolicy, sortedNames,
      hpending] at hnone
  exact absurd (Finset.card_le_card hall) (Nat.not_le_of_lt howed)

theorem Reaches.of_feederStep {sweep : Nat} {queueName msgID : GoString}
    (hreaches : state.Reaches sweep queueName msgID) {used : Finset GoString}
    (hstore : state.store.Outstanding used) (hopen : state.stopCh.isSome = true)
    {held : MessageState} (hheld : state.store.Holds queueName msgID held) {id : Nat}
    {feeder : Feeder} (hfeeder : state.feeders id = some feeder) {action : FeederAction}
    (hstep : FeederStep state id feeder action next) : next.Reaches sweep queueName msgID := by
  have hgrows : state.inFlightMsgs ⊆ next.inFlightMsgs := by
    cases hstep with
    | refused | commit | readNames | readPending => exact Finset.Subset.refl _
    | handOver | sweep => exact (inFlight_subset_schedule _ _ _).1
  have hothers : sweep ≠ id → next.feeders sweep = state.feeders sweep := by
    intro hne
    cases hstep with
    | refused | commit | readNames | readPending => exact Function.update_of_ne hne _ _
    | handOver | sweep =>
        refine (Function.update_of_ne hne _ _).trans ?_
        rw [(inFlight_subset_schedule _ _ _).2]
  rcases hreaches with hmem | ⟨found, hfound, hahead⟩
  · exact .inl (hgrows hmem)
  by_cases hsweep : sweep = id
  · subst hsweep
    rw [hfeeder] at hfound
    cases hfound
    cases hstep with
    | refused | commit | handOver => exact hahead.elim
    | readNames =>
        obtain ⟨queue, hqueue, _⟩ := hheld
        refine .inr ⟨_, Function.update_self .., .inl ?_⟩
        exact mem_sortedKeys.mpr (Finmap.mem_iff.mpr ⟨queue, hqueue⟩)
    | @readPending swept name queueNames =>
        refine .inr ⟨_, Function.update_self .., ?_⟩
        rcases hahead with hlater | ⟨_, msg, hmsg, _⟩
        · rcases List.mem_cons.mp hlater with rfl | hlater
          · exact .inr ⟨rfl, _, mem_pendingMessages hheld, hstore.msgID _ _ _ hheld,
              pendingSubs_of_owed hstore hheld⟩
          · exact .inl hlater
        · contradiction
    | @sweep swept msg msgs queueNames =>
        rcases hahead with hlater | ⟨rfl, found, hmem, rfl, hpending⟩
        · exact .inr ⟨_, Function.update_self .., .inl hlater⟩
        · rcases List.mem_cons.mp hmem with rfl | hmem
          · exact .inl (mem_inFlight_schedule hopen _ hpending)
          · exact .inr ⟨_, Function.update_self .., .inr ⟨rfl, found, hmem, rfl, hpending⟩⟩
  · exact .inr ⟨found, (hothers hsweep).trans hfound, hahead⟩

theorem Reaches.step {sweep : Nat} {queueName msgID : GoString}
    (hreaches : state.Reaches sweep queueName msgID) (htrailing : state.Trailing state.store)
    (hcausal : state.Causal log history) (hlawful : Lawful history log)
    (hstocked : Stocked log state.store) (hopen : state.stopCh.isSome = true)
    (hstays : next.stopCh.isSome = true) {held : MessageState}
    (hheld : state.store.Holds queueName msgID held) {event : DeliveryEvent}
    (hstep : state.step event = some next) : next.Reaches sweep queueName msgID := by
  have hfree : ∀ {id feeder}, state.feeders id = none →
      (state.setFeeder id feeder).Reaches sweep queueName msgID := by
    intro id feeder hnone
    refine hreaches.imp_right ?_
    rintro ⟨found, hfound, hahead⟩
    have hne : sweep ≠ id := by
      rintro rfl
      rw [hnone] at hfound
      contradiction
    exact ⟨found, (Function.update_of_ne hne _ _).trans hfound, hahead⟩
  cases stepped_of_step hstep with
  | tenure hleadership htenure =>
      cases htenure with
      | gain | lose | advance => exact hreaches
      | demote => contradiction
      | openTenure hnone => exact hfree hnone
  | replicate => exact hreaches
  | fetch hnone => exact hfree hnone
  | tick hnone => exact hfree hnone
  | feeder hfeeder hfeederStep =>
      exact hreaches.of_feederStep hstocked.outstanding hopen hheld hfeeder hfeederStep
  | worker hworker hworkerStep =>
      have hsame : next.feeders = state.feeders := by
        cases hworkerStep with
        | @result _ _ _ _ _ ok =>
            cases ok with
            | true | false => rfl
        | _ => rfl
      rcases hreaches with hmem | hfeeder
      · exact .inl (mem_inFlight_of_workerStep htrailing hcausal hlawful hstocked hheld hworker
          hworkerStep hmem)
      · right
        rwa [hsame]

end Delivery

/-! ### The fleet -/

theorem InMemoryStorage.Retains.trans {used : Finset GoString}
    {first second third : InMemoryStorage} (hfirst : first.Retains used second)
    (hsecond : second.Retains used third) : first.Retains used third := by
  intro queueName msgID msg hmsg hused
  obtain ⟨middle, hmiddle, hsubList, hacked⟩ := hsecond queueName msgID msg hmsg hused
  obtain ⟨before, hbefore, hsame, hsubset⟩ := hfirst queueName msgID middle hmiddle hused
  exact ⟨before, hbefore, hsubList.trans hsame, hsubset.trans hacked⟩

theorem Stocked.retains_applyCommand {log : List Command} {store : InMemoryStorage}
    (hstocked : Stocked log store) {cmd : Command}
    (hfresh : cmd.type = .enqueue → cmd.msgID ∉ publishedIDs log) :
    store.Retains (publishedIDs log).toFinset (FSM.applyCommand 0 store cmd).2 := by
  cases htype : cmd.type with
  | createQueue | deleteQueue | putSubPolicy | deleteSubPolicy =>
      have hcmd : cmd.isAdministrative = true := by simp [Command.isAdministrative, htype]
      exact (FSM.outstanding_applyCommand hstocked.outstanding hcmd 0).2
  | ack =>
      simp only [FSM.applyCommand, htype]
      exact InMemoryStorage.retains_of_ack _ _ _
  | enqueue =>
      simp only [FSM.applyCommand, htype]
      cases hnext : store.enqueue cmd.queueName cmd.msgID cmd.payload cmd.subList with
      | error err => exact .refl _ _
      | ok result =>
          refine InMemoryStorage.retains_of_enqueue ?_ hnext
          rw [List.mem_toFinset]
          exact hfresh htype
  | unknown code =>
      simp only [FSM.applyCommand, htype]
      exact .refl _ _

theorem Lawful.fresh_of_getElem {history : List (Attempt Share)} {log : List Command}
    (hlawful : Lawful history log) {position : Nat} {cmd : Command}
    (hentry : log[position]? = some cmd) (htype : cmd.type = .enqueue) :
    cmd.msgID ∉ publishedIDs (log.take position) := by
  have hids := (hlawful.sublist (List.take_sublist (position + 1) log)).ids
  rw [List.take_add_one, hentry, Option.toList_some, publishedIDs_concat, if_pos htype] at hids
  exact fun hmem => (List.nodup_append.mp hids).2.2 _ hmem _ List.mem_cons_self rfl

theorem Lawful.retains_replay {history : List (Attempt Share)} {log : List Command}
    (hlawful : Lawful history log) {first second : Nat} (hle : first ≤ second) :
    (replay (log.take first)).Retains (publishedIDs (log.take first)).toFinset
      (replay (log.take second)) := by
  induction second, hle using Nat.le_induction with
  | base => exact .refl _ _
  | succ second hle ih =>
      cases hentry : log[second]? with
      | none =>
          rw [List.take_add_one, hentry, Option.toList_none, List.append_nil]
          exact ih
      | some cmd =>
          rw [replay_take_succ hentry]
          have hstocked := stocked_replay (hlawful.sublist (List.take_sublist second log))
          have hlast := hstocked.retains_applyCommand (hlawful.fresh_of_getElem hentry)
          refine ih.trans fun queueName msgID msg hmsg hused => hlast _ _ msg hmsg ?_
          rw [List.mem_toFinset] at hused ⊢
          exact (((List.take_sublist_take_left hle).filter _).map _).subset hused

namespace Fleet

variable {Node : Type}

structure Sound (fleet : Fleet Node) (history : List (Attempt Share)) : Prop where
  grounded : fleet.Grounded history
  trailing : ∀ node, (fleet.nodes node).Trailing (fleet.nodes node).store
  attended : ∀ node, (fleet.nodes node).Attended

theorem sound_initial : (initial : Fleet Node).Sound [] where
  grounded := grounded_initial
  trailing := fun _ => Delivery.trailing_initial .empty .empty
  attended := fun _ => Delivery.attended_initial

namespace Sound

variable {fleet next : Fleet Node} {history : List (Attempt Share)}

theorem trailing_replay (hsound : fleet.Sound history) {node : Node} {position : Nat}
    (hposition : fleet.applied node ≤ position) :
    (fleet.nodes node).Trailing (replay (fleet.log.take position)) := by
  refine (hsound.trailing node).retain (hsound.grounded.causal node) ?_
  rw [hsound.grounded.store node]
  exact hsound.grounded.lawful_log.retains_replay hposition

variable [DecidableEq Node]

theorem setNode (hsound : fleet.Sound history) {node : Node} {state : Delivery}
    {position : Nat} {later : List (Attempt Share)}
    (hgrounded : (fleet.setNode node state position).Grounded later)
    (htrailing : state.Trailing state.store) (hattended : state.Attended) :
    (fleet.setNode node state position).Sound later where
  grounded := hgrounded
  trailing := by
    intro other
    simp only [Fleet.setNode, Function.update_apply]
    split_ifs
    · exact htrailing
    · exact hsound.trailing other
  attended := by
    intro other
    simp only [Fleet.setNode, Function.update_apply]
    split_ifs
    · exact hattended
    · exact hsound.attended other

theorem act (hsound : fleet.Sound history) {node : Node} {event : DeliveryEvent}
    {state : Delivery} {position : Nat} {later : List (Attempt Share)}
    (hgrounded : (fleet.setNode node state position).Grounded later)
    (hposition : fleet.applied node ≤ position)
    (hnode : (fleet.nodes node).step event = some state)
    (hfresh : ∀ cmd, (fleet.nodes node).proposal event = some cmd → cmd.type = .enqueue →
      cmd.msgID ∉ publishedIDs (fleet.seen node)) :
    (fleet.setNode node state position).Sound later := by
  have hstore : state.store = replay (fleet.log.take position) := by
    have hsame := hgrounded.store node
    simpa [Fleet.setNode, Fleet.seen] using hsame
  refine hsound.setNode hgrounded ?_ ((hsound.attended node).step hnode)
  refine (hsound.trailing node).step ?_ (hsound.grounded.causal node)
    (hsound.grounded.stocked node) hfresh hnode
  rw [hstore]
  exact hsound.trailing_replay hposition

theorem step (hsound : fleet.Sound history) {event : FleetEvent Node}
    (hstep : fleet.step event = some next) :
    next.Sound (history ++ fleet.attempts event) := by
  have hgrounded := hsound.grounded.step hstep
  have htrailing : ∀ node, (fleet.nodes node).Trailing (fleet.nodes node).store :=
    hsound.trailing
  cases stepped_of_step hstep with
  | @acted node event state hevent hnode hnone =>
      refine hsound.act hgrounded (Nat.le_refl _) hnode ?_
      intro cmd hcmd
      rw [hnone] at hcmd
      contradiction
  | @answered node event state cmd hevent hnode hproposal hentry =>
      refine hsound.act hgrounded (Nat.le_succ _) hnode ?_
      intro other hother
      rw [hproposal] at hother
      cases hother
      exact hsound.grounded.lawful_log.fresh_of_getElem hentry
  | submitted | requested | committed => exact ⟨hgrounded, htrailing, hsound.attended⟩
  | @applied node cmd hentry =>
      refine hsound.setNode hgrounded ?_ { hsound.attended node with }
      have hlater := hsound.trailing_replay (Nat.le_succ (fleet.applied node))
      rw [replay_take_succ hentry, ← seen, ← hsound.grounded.store node] at hlater
      exact hlater.of_same rfl rfl
  | @installed node position hahead hposition =>
      refine hsound.setNode hgrounded ?_ { hsound.attended node with }
      exact (hsound.trailing_replay hahead).of_same rfl rfl
  | restarted hposition =>
      refine hsound.setNode hgrounded ?_ { Delivery.attended_initial with }
      exact Delivery.trailing_initial _ _

end Sound

variable [DecidableEq Node]

theorem sound_of_exec {events : List (FleetEvent Node)} {fleet : Fleet Node}
    (hexec : Transition.exec step initial events = some fleet) :
    fleet.Sound (answers events) :=
  Transition.exec_traces (fun hsound hstep => hsound.step hstep) sound_initial hexec

/-- The node is in an open tenure, and its store holds the message. -/
def Owing (node : Node) (queueName msgID : GoString) (fleet : Fleet Node) : Prop :=
  (fleet.nodes node).stopCh.isSome = true ∧
    (((fleet.nodes node).store.queues.lookup queueName).bind
      fun queue => queue.messages.lookup msgID).isSome = true

instance (node : Node) (queueName msgID : GoString) :
    DecidablePred (Owing node queueName msgID) :=
  fun _ => inferInstanceAs (Decidable (_ ∧ _))

omit [DecidableEq Node] in
theorem Owing.holds {node : Node} {queueName msgID : GoString} {fleet : Fleet Node}
    (howing : fleet.Owing node queueName msgID) :
    ∃ held, (fleet.nodes node).store.Holds queueName msgID held := by
  obtain ⟨held, hheld⟩ := Option.isSome_iff_exists.mp howing.2
  obtain ⟨queue, hqueue, hlookup⟩ := Option.bind_eq_some_iff.mp hheld
  exact ⟨held, queue, hqueue, hlookup⟩

theorem reaches_step {node : Node} {sweep : Nat} {queueName msgID : GoString}
    {fleet next : Fleet Node} {history : List (Attempt Share)} (hsound : fleet.Sound history)
    (howing : fleet.Owing node queueName msgID) (hstays : next.Owing node queueName msgID)
    (hreaches : (fleet.nodes node).Reaches sweep queueName msgID)
    {event : FleetEvent Node} (hstep : fleet.step event = some next) :
    (next.nodes node).Reaches sweep queueName msgID := by
  obtain ⟨held, hheld⟩ := howing.holds
  have hset : ∀ {acting state position}, next = fleet.setNode acting state position →
      (acting = node → state.stopCh.isSome = true → state.Reaches sweep queueName msgID) →
      (next.nodes node).Reaches sweep queueName msgID := by
    rintro acting state position rfl hacting
    by_cases hnode : node = acting
    · subst hnode
      have hopen := hstays.1
      simp only [setNode, Function.update_self] at hopen ⊢
      exact hacting rfl hopen
    · simp only [setNode, Function.update_of_ne hnode]
      exact hreaches
  have hact : ∀ {event state}, (fleet.nodes node).step event = some state →
      state.stopCh.isSome = true → state.Reaches sweep queueName msgID := by
    intro event state hnode hopen
    exact hreaches.step (hsound.trailing node) (hsound.grounded.causal node)
      (hsound.grounded.lawful_take _) (hsound.grounded.stocked node) howing.1 hopen hheld hnode
  cases stepped_of_step hstep with
  | acted hevent hnode =>
      refine hset rfl ?_
      rintro rfl
      exact hact hnode
  | answered hevent hnode =>
      refine hset rfl ?_
      rintro rfl
      exact hact hnode
  | submitted | requested | committed => exact hreaches
  | applied | installed =>
      refine hset rfl ?_
      rintro rfl _
      exact hreaches
  | restarted =>
      refine hset rfl ?_
      rintro rfl hopen
      contradiction

/-- A sweep that runs to its end leaves no message behind: whatever the leader's store
held all the while, a running worker of the current tenure has it. -/
theorem sweep_attends_what_is_owed {before : List (FleetEvent Node)} {fleet final : Fleet Node}
    (hbefore : Transition.exec step initial before = some fleet) {node : Node} {sweep : Nat}
    (hstarts : (fleet.nodes node).feeders sweep = some .starting)
    {events : List (FleetEvent Node)} (hexec : Transition.exec step fleet events = some final)
    {swept : GoString}
    (hends : (final.nodes node).feeders sweep = some (.sweeping swept [] []))
    {queueName msgID : GoString}
    (howing : Transition.Throughout step (Owing node queueName msgID) fleet events) :
    (final.nodes node).Attends msgID := by
  let Q (fleet : Fleet Node) : Prop :=
    (∃ history, fleet.Sound history) ∧ (fleet.nodes node).Reaches sweep queueName msgID
  have hstart : Q fleet := ⟨⟨_, sound_of_exec hbefore⟩, .inr ⟨_, hstarts, trivial⟩⟩
  obtain ⟨⟨history, hsound⟩, hreaches⟩ : Q final := by
    refine Transition.exec_throughout ?_ howing hstart hexec
    rintro state event next hnow hlater ⟨⟨history, hsound⟩, hreaches⟩ hstep
    exact ⟨⟨_, hsound.step hstep⟩, reaches_step hsound hnow hlater hreaches hstep⟩
  rcases hreaches with hmem | ⟨feeder, hfeeder, hahead⟩
  · exact (hsound.attended node).attends msgID hmem
  · rw [hends] at hfeeder
    cases hfeeder
    simp [Feeder.Ahead] at hahead

/-- The leader commits a publish and fails before it has scheduled the message.  Another
node takes over. -/
def takeover : List (FleetEvent Bool) :=
  let publish := DeliveryEvent.feeder 1 (.commit (lit "orders-1") (lit "order 1"))
  [.request (.newCreateQueue (lit "orders")),
    .request (.newPutSubPolicy (lit "orders") (billingPolicy 1)), .commit 0, .commit 0,
    .apply false, .apply false, .act false .gain, .act false (.fetch 1 (lit "orders")),
    .submit false publish, .commit 0, .act false publish, .restart false 2,
    .apply true, .apply true, .apply true, .act true .gain, .act true .receive,
    .act true .checkLeader, .act true .tearDown, .act true (.barrier true),
    .act true (.openTenure 0)]

/-- The sweep of the new leader, while its worker is already at work. -/
def takeoverSweep : List (FleetEvent Bool) :=
  [.act true (.feeder 0 .readNames), .act true (.feeder 0 .readPending), .apply false,
    .act true (.feeder 0 .schedule), .act true (.worker 0 .checkRun),
    .act true (.worker 0 .pop), .act true (.worker 0 (.result (lit "billing") false))]

theorem takeover_attends_what_is_owed :
    ∃ fleet final, Transition.exec step initial takeover = some fleet ∧
      Transition.exec step fleet takeoverSweep = some final ∧
      (final.nodes true).Attends (lit "orders-1") := by
  have hstart : ∃ fleet, Transition.exec step initial takeover = some fleet ∧
      (fleet.nodes true).feeders 0 = some .starting ∧
      Transition.Throughout step (Owing true (lit "orders") (lit "orders-1")) fleet
        takeoverSweep ∧
      ∃ final, Transition.exec step fleet takeoverSweep = some final ∧
        (final.nodes true).feeders 0 = some (.sweeping (lit "orders") [] []) := by
    refine ⟨_, rfl, rfl, by decide +kernel, _, rfl, rfl⟩
  obtain ⟨fleet, hbefore, hstarts, howing, final, hexec, hends⟩ := hstart
  exact ⟨fleet, final, hbefore, hexec,
    sweep_attends_what_is_owed hbefore hstarts hexec hends howing⟩

end Fleet

end SimonMQ.Dist
