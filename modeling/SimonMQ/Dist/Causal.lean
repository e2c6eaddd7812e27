import SimonMQ.Dist.Fleet
import SimonMQ.Dist.Passes

namespace SimonMQ.Dist

open SimonMQ.Go
open SimonMQ.Attempts (Attempt)

/-! Where the commands of the log and the messages in a node's memory come from: from
publishes, and from what subscribers have answered. -/

def Published (log : List Command) (queueName msgID : GoString)
    (subList : GoMap SubPolicy) : Prop :=
  ∃ cmd ∈ log, cmd.type = .enqueue ∧ cmd.queueName = queueName ∧ cmd.msgID = msgID ∧
    cmd.subList = subList

theorem Published.mono {log later : List Command} {queueName msgID : GoString}
    {subList : GoMap SubPolicy} (hpublished : Published log queueName msgID subList)
    (hlog : log ⊆ later) : Published later queueName msgID subList := by
  obtain ⟨cmd, hmem, hcmd⟩ := hpublished
  exact ⟨cmd, hlog hmem, hcmd⟩

/-! ### The commands -/

theorem publishedIDs_concat (commands : List Command) (cmd : Command) :
    publishedIDs (commands ++ [cmd]) =
      publishedIDs commands ++ if cmd.type = .enqueue then [cmd.msgID] else [] := by
  unfold publishedIDs
  by_cases htype : cmd.type = .enqueue
  · simp [htype]
  · simp [htype]

/-- What a command may rest on when it is proposed. -/
structure Command.Grounded (history : List (Attempt Share)) (cmd : Command) : Prop where
  keyed : cmd.type = .enqueue → KeyedByName cmd.subList
  settled : cmd.type = .ack → ∀ name ∈ cmd.subNames,
    Attempts.Settled history ⟨cmd.queueName, cmd.msgID, name⟩

theorem Command.grounded_of_isAdministrative {history : List (Attempt Share)}
    {cmd : Command} (hcmd : cmd.isAdministrative = true) : cmd.Grounded history := by
  constructor
  · intro htype
    simp [Command.isAdministrative, htype] at hcmd
  · intro htype
    simp [Command.isAdministrative, htype] at hcmd

structure Lawful (history : List (Attempt Share)) (commands : List Command) : Prop where
  ids : (publishedIDs commands).Nodup
  grounded : ∀ cmd ∈ commands, cmd.Grounded history

namespace Lawful

variable {history : List (Attempt Share)} {commands : List Command}

theorem sublist (hlawful : Lawful history commands) {fewer : List Command}
    (hsublist : fewer.Sublist commands) : Lawful history fewer where
  ids := hlawful.ids.sublist ((hsublist.filter _).map _)
  grounded := fun cmd hmem => hlawful.grounded cmd (hsublist.subset hmem)

theorem perm (hlawful : Lawful history commands) {other : List Command}
    (hperm : other.Perm commands) : Lawful history other where
  ids := ((hperm.filter _).map _).nodup_iff.mpr hlawful.ids
  grounded := fun cmd hmem => hlawful.grounded cmd (hperm.subset hmem)

theorem append (hlawful : Lawful history commands) (later : List (Attempt Share)) :
    Lawful (history ++ later) commands where
  ids := hlawful.ids
  grounded := by
    intro cmd hmem
    have hgrounded := hlawful.grounded cmd hmem
    exact ⟨hgrounded.keyed, fun htype name hname =>
      (hgrounded.settled htype name hname).append later⟩

theorem concat (hlawful : Lawful history commands) {cmd : Command}
    (hfresh : cmd.type = .enqueue → cmd.msgID ∉ publishedIDs commands)
    (hgrounded : cmd.Grounded history) : Lawful history (commands ++ [cmd]) where
  ids := by
    rw [publishedIDs_concat]
    split_ifs with htype
    · rw [← List.concat_eq_append]
      exact hlawful.ids.concat (hfresh htype)
    · rw [List.append_nil]
      exact hlawful.ids
  grounded := by
    intro other hmem
    rcases List.mem_append.mp hmem with hmem | hmem
    · exact hlawful.grounded other hmem
    · rw [List.mem_singleton.mp hmem]
      exact hgrounded

theorem published_unique (hlawful : Lawful history commands)
    {queueName otherName msgID : GoString} {subList other : GoMap SubPolicy}
    (hpublished : Published commands queueName msgID subList)
    (hother : Published commands otherName msgID other) :
    queueName = otherName ∧ subList = other := by
  obtain ⟨cmd, hmem, htype, rfl, rfl, rfl⟩ := hpublished
  obtain ⟨second, hsecond, hsecondType, rfl, hid, rfl⟩ := hother
  have hsame : cmd = second := by
    apply List.inj_on_of_nodup_map hlawful.ids
    · exact List.mem_filter.mpr ⟨hmem, by simpa using htype⟩
    · exact List.mem_filter.mpr ⟨hsecond, by simpa using hsecondType⟩
    · exact hid.symm
  rw [hsame]
  exact ⟨rfl, rfl⟩

theorem keyed (hlawful : Lawful history commands) {queueName msgID : GoString}
    {subList : GoMap SubPolicy} (hpublished : Published commands queueName msgID subList) :
    KeyedByName subList := by
  obtain ⟨cmd, hmem, htype, rfl, rfl, rfl⟩ := hpublished
  exact (hlawful.grounded cmd hmem).keyed htype

end Lawful

/-! ### The store -/

/-- The store holds nothing that the log did not publish. -/
structure Stocked (log : List Command) (store : InMemoryStorage) : Prop where
  outstanding : store.Outstanding (publishedIDs log).toFinset
  published : ∀ queueName msgID msg, store.Holds queueName msgID msg →
    Published log queueName msgID msg.subList

namespace Stocked

variable {log : List Command} {store : InMemoryStorage}

theorem mono (hstocked : Stocked log store) {later : List Command}
    (hsublist : log.Sublist later) : Stocked later store where
  outstanding := by
    refine hstocked.outstanding.mono fun msgID hmem => ?_
    rw [List.mem_toFinset] at hmem ⊢
    exact ((hsublist.filter _).map _).subset hmem
  published := fun queueName msgID msg hholds =>
    (hstocked.published queueName msgID msg hholds).mono hsublist.subset

theorem of_retains (hstocked : Stocked log store) {next : InMemoryStorage}
    (houtstanding : next.Outstanding (publishedIDs log).toFinset)
    (hretains : store.Retains (publishedIDs log).toFinset next) : Stocked log next where
  outstanding := houtstanding
  published := by
    intro queueName msgID msg hholds
    obtain ⟨before, hbefore, hsubList, _⟩ :=
      hretains queueName msgID msg hholds (houtstanding.used _ _ _ hholds)
    rw [hsubList]
    exact hstocked.published queueName msgID before hbefore

theorem enqueue (hstocked : Stocked log store) {cmd : Command} (htype : cmd.type = .enqueue)
    (hfresh : cmd.msgID ∉ publishedIDs log) (hkeyed : KeyedByName cmd.subList)
    {info : MessageInfo} {next : InMemoryStorage}
    (hnext : store.enqueue cmd.queueName cmd.msgID cmd.payload cmd.subList =
      .ok (info, next)) : Stocked (log ++ [cmd]) next where
  outstanding := by
    have hused : (publishedIDs (log ++ [cmd])).toFinset =
        insert cmd.msgID (publishedIDs log).toFinset := by
      rw [publishedIDs_concat, if_pos htype, List.toFinset_append, Finset.union_comm]
      rfl
    rw [hused]
    exact hstocked.outstanding.enqueue (by rwa [List.mem_toFinset]) hkeyed hnext
  published := by
    intro queueName msgID msg hholds
    rcases InMemoryStorage.holds_of_enqueue hnext hholds with hheld | ⟨rfl, rfl, rfl, _⟩
    · exact (hstocked.published _ _ _ hheld).mono (List.subset_append_left _ _)
    · exact ⟨cmd, List.mem_append_right _ List.mem_cons_self, htype, rfl, rfl, rfl⟩

theorem applyCommand (hstocked : Stocked log store) {cmd : Command}
    (hfresh : cmd.type = .enqueue → cmd.msgID ∉ publishedIDs log)
    (hkeyed : cmd.type = .enqueue → KeyedByName cmd.subList) :
    Stocked (log ++ [cmd]) (FSM.applyCommand 0 store cmd).2 := by
  have hlonger : log.Sublist (log ++ [cmd]) := List.sublist_append_left _ _
  have happlied := FSM.applied_applyCommand 0 store cmd
  generalize (FSM.applyCommand 0 store cmd).2 = next at happlied ⊢
  by_cases hcmd : cmd.type ≠ .enqueue ∧ cmd.type ≠ .ack
  · obtain ⟨houtstanding, hretains⟩ := hstocked.outstanding.administered
      (InMemoryStorage.administers_of_applied happlied hcmd)
    exact (hstocked.of_retains houtstanding hretains).mono hlonger
  · cases happlied with
    | refused => exact hstocked.mono hlonger
    | acked htype =>
        exact (hstocked.of_retains (hstocked.outstanding.ack _ _ _)
          (InMemoryStorage.retains_of_ack _ _ _)).mono hlonger
    | enqueued htype hnext =>
        exact hstocked.enqueue htype (hfresh htype) (hkeyed htype) hnext
    | createdQueue htype | deletedQueue htype | putPolicy htype | deletedPolicy htype =>
        simp [htype] at hcmd

end Stocked

theorem stocked_replay {history : List (Attempt Share)} {log : List Command}
    (hlawful : Lawful history log) : Stocked log (replay log) := by
  induction log using List.reverseRecOn with
  | nil =>
      refine ⟨InMemoryStorage.outstanding_empty, ?_⟩
      rintro queueName msgID msg ⟨queue, hqueue, _⟩
      simp [replay, FSM.applyLog, InMemoryStorage.empty] at hqueue
  | append_singleton log cmd ih =>
      rw [replay_concat]
      refine (ih (hlawful.sublist (List.sublist_append_left _ _))).applyCommand ?_ ?_
      · intro htype
        have hids := hlawful.ids
        rw [publishedIDs_concat, if_pos htype, List.nodup_append] at hids
        exact fun hmem => hids.2.2 _ hmem _ List.mem_cons_self rfl
      · exact (hlawful.grounded cmd (by simp)).keyed

theorem holds_of_mem_pendingMessages {store : InMemoryStorage} {used : Finset GoString}
    (hstore : store.Outstanding used)
    {queueName : GoString} {msg : MessageInfo}
    (hmem : msg ∈ (store.pendingMessages queueName).toOption.getD []) :
    ∃ held, store.Holds queueName msg.msgID held ∧ msg = toMessageInfo held := by
  unfold InMemoryStorage.pendingMessages at hmem
  cases hqueue : store.queues.lookup queueName with
  | none => simp [hqueue, Except.toOption] at hmem
  | some queue =>
      simp only [hqueue, Except.toOption, Option.getD_some, messagesInOrder,
        QueueState.inOrder, List.mem_map, List.mem_insertionSort] at hmem
      obtain ⟨held, ⟨entry, hentry, rfl⟩, rfl⟩ := hmem
      have hlookup := (sortedEntries_enumerates queue.messages).lookup_of_mem hentry
      have hholds : store.Holds queueName entry.1 entry.2 := ⟨queue, hqueue, hlookup⟩
      refine ⟨entry.2, ?_, rfl⟩
      rwa [toMessageInfo, hstore.msgID _ _ _ hholds]

/-! ### A node -/

section Node

variable {log : List Command} {history : List (Attempt Share)}

/-- A message that a worker carries: its count of failures is not ahead of the
subscribers' answers. -/
structure QueueMsg.Tracked (log : List Command) (history : List (Attempt Share))
    (queueName : GoString) (msg : QueueMsg) : Prop where
  published : Published log queueName msg.msgID msg.subList
  counted : ∀ name, (msg.retryMap.lookup name).getD 0 ≤
    Attempts.failures ⟨queueName, msg.msgID, name⟩ history

structure QueueMsg.Answered (history : List (Attempt Share)) (queueName : GoString)
    (msg : QueueMsg) (answered : Finset GoString) (results : List DeliveryResult) :
    Prop where
  names : ∀ result ∈ results, result.subName ∈ answered
  nodup : (results.map DeliveryResult.subName).Nodup
  failed : ∀ name, ⟨name, false⟩ ∈ results → (msg.retryMap.lookup name).getD 0 + 1 ≤
    Attempts.failures ⟨queueName, msg.msgID, name⟩ history
  recorded : ∀ result ∈ results, ∃ policy,
    msg.pendingSubs.lookup result.subName = some policy ∧
      ⟨⟨queueName, msg.msgID, result.subName⟩, policy.numberOfRetries.toInt, result.ok⟩ ∈
        history

def QueueMsg.Finished (history : List (Attempt Share)) (queueName : GoString)
    (msg : QueueMsg) (finished : List GoString) : Prop :=
  ∀ name ∈ finished, Attempts.Settled history ⟨queueName, msg.msgID, name⟩

def WorkerPhase.Tracked (history : List (Attempt Share)) (queueName : GoString) :
    WorkerPhase → Prop
  | .sending msg answered results => msg.Answered history queueName answered results
  | .collected msg finished | .acking msg finished | .acked msg finished =>
      msg.Finished history queueName finished
  | .starting | .popping | .waiting | .dropping _ | .rejected _ | .returned => True

structure Worker.Tracked (log : List Command) (history : List (Attempt Share))
    (worker : Worker) : Prop where
  items : ∀ msg ∈ worker.items, msg.Tracked log history worker.queueName
  phase : worker.phase.Tracked history worker.queueName

def Feeder.Tracked (log : List Command) : Feeder → Prop
  | .fetched _ subList => KeyedByName subList
  | .committed queueName msg => Published log queueName msg.msgID msg.subList
  | .starting => True
  | .sweeping queueName msgs _ =>
      ∀ msg ∈ msgs, Published log queueName msg.msgID msg.subList

/-- All that a node has in memory comes from the log and from what subscribers have
answered to this node or, before, to others. -/
structure Delivery.Causal (log : List Command) (history : List (Attempt Share))
    (state : Delivery) : Prop where
  workers : ∀ id worker, state.workers id = some worker → worker.Tracked log history
  feeders : ∀ id feeder, state.feeders id = some feeder → feeder.Tracked log
  queues : ∀ queueName id, state.queues.lookup queueName = some id →
    id < state.workerCount ∧
      ∀ worker, state.workers id = some worker → worker.queueName = queueName

theorem QueueMsg.Tracked.mono {queueName : GoString} {msg : QueueMsg}
    (htracked : msg.Tracked log history queueName) {longer : List Command}
    (hlog : log ⊆ longer) (later : List (Attempt Share)) :
    msg.Tracked longer (history ++ later) queueName where
  published := htracked.published.mono hlog
  counted := by
    intro name
    rw [Attempts.failures_append]
    exact Nat.le_add_right_of_le (htracked.counted name)

theorem QueueMsg.Answered.append {queueName : GoString} {msg : QueueMsg}
    {answered : Finset GoString} {results : List DeliveryResult}
    (hanswered : msg.Answered history queueName answered results)
    (later : List (Attempt Share)) :
    msg.Answered (history ++ later) queueName answered results where
  names := hanswered.names
  nodup := hanswered.nodup
  failed := by
    intro name hmem
    rw [Attempts.failures_append]
    exact Nat.le_add_right_of_le (hanswered.failed name hmem)
  recorded := by
    intro result hmem
    obtain ⟨policy, hpolicy, hrecorded⟩ := hanswered.recorded result hmem
    exact ⟨policy, hpolicy, List.mem_append_left _ hrecorded⟩

theorem WorkerPhase.Tracked.append {queueName : GoString} {phase : WorkerPhase}
    (htracked : phase.Tracked history queueName) (later : List (Attempt Share)) :
    phase.Tracked (history ++ later) queueName := by
  cases phase with
  | sending msg answered results => exact QueueMsg.Answered.append htracked later
  | collected msg finished | acking msg finished | acked msg finished =>
      exact fun name hname => (htracked name hname).append later
  | starting | popping | waiting | dropping | rejected | returned => trivial

theorem Worker.Tracked.mono {worker : Worker} (htracked : worker.Tracked log history)
    {longer : List Command} (hlog : log ⊆ longer) (later : List (Attempt Share)) :
    worker.Tracked longer (history ++ later) where
  items := fun msg hmem => (htracked.items msg hmem).mono hlog later
  phase := htracked.phase.append later

theorem Feeder.Tracked.mono {feeder : Feeder} (htracked : feeder.Tracked log)
    {longer : List Command} (hlog : log ⊆ longer) : feeder.Tracked longer := by
  cases feeder with
  | fetched queueName subList => exact htracked
  | committed queueName msg => exact Published.mono htracked hlog
  | starting => trivial
  | sweeping queueName msgs queueNames => exact fun msg hmem => (htracked msg hmem).mono hlog

namespace Delivery

variable {state next : Delivery}

theorem Causal.mono (hcausal : state.Causal log history) {longer : List Command}
    (hlog : log ⊆ longer) (later : List (Attempt Share)) :
    state.Causal longer (history ++ later) where
  workers := fun id worker hworker => (hcausal.workers id worker hworker).mono hlog later
  feeders := fun id feeder hfeeder => (hcausal.feeders id feeder hfeeder).mono hlog
  queues := hcausal.queues

theorem Causal.longer (hcausal : state.Causal log history) {longer : List Command}
    (hlog : log ⊆ longer) : state.Causal longer history := by
  have hmono := hcausal.mono hlog []
  rwa [List.append_nil] at hmono

theorem Causal.of_same (hcausal : state.Causal log history)
    (hworkers : next.workers = state.workers) (hfeeders : next.feeders = state.feeders)
    (hcount : next.workerCount = state.workerCount)
    (hqueues : next.queues = state.queues ∨ next.queues = ∅) :
    next.Causal log history where
  workers := by
    rw [hworkers]
    exact hcausal.workers
  feeders := by
    rw [hfeeders]
    exact hcausal.feeders
  queues := by
    intro queueName id hqueue
    rw [hcount, hworkers]
    rcases hqueues with hsame | hnone
    · exact hcausal.queues queueName id (hsame ▸ hqueue)
    · simp [hnone] at hqueue

theorem Causal.setWorker (hcausal : state.Causal log history) {id : Nat}
    {old worker : Worker} (hold : state.workers id = some old)
    (hname : worker.queueName = old.queueName) (hworker : worker.Tracked log history) :
    (state.setWorker id worker).Causal log history where
  workers := by
    intro other found hfound
    rcases found_of_setWorker hfound with ⟨_, rfl⟩ | ⟨_, hfound⟩
    · exact hworker
    · exact hcausal.workers other found hfound
  feeders := hcausal.feeders
  queues := by
    intro queueName other hqueue
    obtain ⟨hbound, hregistered⟩ := hcausal.queues queueName other hqueue
    refine ⟨hbound, fun found hfound => ?_⟩
    rcases found_of_setWorker hfound with ⟨rfl, rfl⟩ | ⟨_, hfound⟩
    · exact hname.trans (hregistered old hold)
    · exact hregistered found hfound

theorem Causal.setFeeder (hcausal : state.Causal log history) {id : Nat}
    {feeder : Option Feeder} (hfeeder : ∀ found ∈ feeder, found.Tracked log) :
    (state.setFeeder id feeder).Causal log history where
  workers := hcausal.workers
  feeders := by
    intro other found hfound
    simp only [Delivery.setFeeder, Function.update_apply] at hfound
    split_ifs at hfound
    · exact hfeeder found hfound
    · exact hcausal.feeders other found hfound
  queues := hcausal.queues

end Delivery

/-! A pass: the answers, and what is made of them. -/

theorem QueueMsg.tracked_newQueueMsg {queueName : GoString} {info : MessageInfo}
    (hpublished : Published log queueName info.msgID info.subList) :
    (newQueueMsg info).Tracked log history queueName where
  published := hpublished
  counted := by simp [newQueueMsg]

theorem QueueMsg.Answered.result {queueName : GoString} {msg : QueueMsg}
    {answered : Finset GoString} {results : List DeliveryResult}
    (hanswered : msg.Answered history queueName answered results)
    (htracked : msg.Tracked log history queueName) (hkeyed : KeyedByName msg.subList)
    {subName : GoString} {policy : SubPolicy}
    (hpending : msg.pendingSubs.lookup subName = some policy)
    (hfirst : subName ∉ answered) (ok : Bool) :
    msg.Answered
      (history ++ [⟨⟨queueName, msg.msgID, policy.subName⟩,
        policy.numberOfRetries.toInt, ok⟩])
      queueName (insert subName answered) (results ++ [⟨policy.subName, ok⟩]) := by
  have hname : policy.subName = subName :=
    hkeyed subName policy (QueueMsg.mem_pendingSubs.mp hpending).1
  rw [hname]
  have hkept := hanswered.append [⟨⟨queueName, msg.msgID, subName⟩,
    policy.numberOfRetries.toInt, ok⟩]
  constructor
  · intro result hmem
    rcases List.mem_append.mp hmem with hmem | hmem
    · exact Finset.mem_insert_of_mem (hanswered.names result hmem)
    · rw [List.mem_singleton.mp hmem]
      exact Finset.mem_insert_self _ _
  · rw [List.map_append, List.map_singleton, ← List.concat_eq_append]
    refine hanswered.nodup.concat fun hmem => ?_
    obtain ⟨result, hresult, hsame : result.subName = subName⟩ := List.mem_map.mp hmem
    exact hfirst (hsame ▸ hanswered.names result hresult)
  · intro name hmem
    rcases List.mem_append.mp hmem with hmem | hmem
    · exact hkept.failed name hmem
    · -- the failure just answered is one more than those counted before the pass
      obtain ⟨rfl, rfl⟩ := DeliveryResult.mk.inj (List.mem_singleton.mp hmem)
      rw [Attempts.failures_append]
      have hcounted := htracked.counted name
      simpa [Attempts.failures, Attempts.outcomes] using hcounted
  · intro result hmem
    rcases List.mem_append.mp hmem with hmem | hmem
    · exact hkept.recorded result hmem
    · rw [List.mem_singleton.mp hmem]
      exact ⟨policy, hpending, List.mem_append_right _ List.mem_cons_self⟩

theorem QueueMsg.Answered.counted_collect {queueName : GoString} {msg : QueueMsg}
    {answered : Finset GoString} {results : List DeliveryResult}
    (hanswered : msg.Answered history queueName answered results)
    (htracked : msg.Tracked log history queueName) :
    (msg.collect results).1.Tracked log history queueName where
  published := htracked.published
  counted := by
    intro name
    simp only [QueueMsg.collect]
    rw [QueueMsg.lookup_foldl_tally _ hanswered.nodup]
    split_ifs with hfailed
    · exact hanswered.failed name hfailed
    · exact htracked.counted name

/-- A pass finishes a subscriber for a success, or because its failures have used up the
budget. -/
theorem QueueMsg.Answered.finished_collect {queueName : GoString} {msg : QueueMsg}
    {answered : Finset GoString} {results : List DeliveryResult}
    (hanswered : msg.Answered history queueName answered results) :
    (msg.collect results).1.Finished history queueName (msg.collect results).2 := by
  intro name hname
  have hfinished : name ∈
      (results.filter (QueueMsg.settles msg.pendingSubs msg.retryMap)).map
        DeliveryResult.subName := by
    simpa [QueueMsg.collect, QueueMsg.foldl_tally_snd _ hanswered.nodup] using hname
  obtain ⟨result, hresult, rfl⟩ := List.mem_map.mp hfinished
  obtain ⟨hmem, hsettles⟩ := List.mem_filter.mp hresult
  obtain ⟨policy, hpolicy, hrecorded⟩ := hanswered.recorded result hmem
  obtain ⟨subName, ok⟩ := result
  cases ok with
  | true =>
      left
      exact List.mem_map.mpr ⟨_, List.mem_filter.mpr ⟨hrecorded, by simp [QueueMsg.collect]⟩,
        rfl⟩
  | false =>
      right
      refine ⟨_, hrecorded, rfl, ?_⟩
      have hfailed := hanswered.failed subName hmem
      simp only [QueueMsg.settles, Bool.false_or, decide_eq_true_eq, hpolicy,
        Option.getD_some] at hsettles
      exact hsettles.trans (Int.ofNat_le.mpr hfailed)

theorem Worker.Tracked.move {worker : Worker} (htracked : worker.Tracked log history)
    {buffer : List QueueMsg} {phase : WorkerPhase}
    (hitems : ∀ msg ∈ phase.msg?.toList ++ buffer,
      msg ∈ worker.items ∨ msg.Tracked log history worker.queueName)
    (hphase : phase.Tracked history worker.queueName) :
    Worker.Tracked log history { worker with buffer, phase } where
  items := fun msg hmem => (hitems msg hmem).elim (htracked.items msg) id
  phase := hphase

theorem Worker.Tracked.requeue {worker : Worker} (htracked : worker.Tracked log history)
    {msg : QueueMsg} (hmsg : msg.Tracked log history worker.queueName) :
    Worker.Tracked log history
      { worker with buffer := worker.buffer ++ [msg], phase := .starting } := by
  refine htracked.move (fun other hmem => ?_) trivial
  rw [WorkerPhase.msg?, Option.toList_none, List.nil_append] at hmem
  rcases List.mem_append.mp hmem with hmem | hmem
  · exact .inl (List.mem_append_right _ hmem)
  · rw [List.mem_singleton.mp hmem]
    exact .inr hmsg

namespace Delivery

variable {state next : Delivery}

theorem Causal.of_workerStep (hcausal : state.Causal log history)
    (hkeyed : ∀ {queueName msgID subList}, Published log queueName msgID subList →
      KeyedByName subList)
    {id : Nat} {worker : Worker} (hworker : state.workers id = some worker)
    {action : WorkerAction} (hstep : WorkerStep state id worker action next) :
    next.Causal log (history ++ state.attempts (.worker id action)) := by
  have htracked := hcausal.workers id worker hworker
  have hcurrent : ∀ msg, worker.phase.msg? = some msg →
      msg.Tracked log history worker.queueName := by
    intro msg hmsg
    exact htracked.items msg (by simp [items_of_phase hmsg])
  have hbuffer : ∀ msg ∈ worker.buffer, msg ∈ worker.items :=
    fun msg hmem => List.mem_append_right _ hmem
  have hphase := htracked.phase
  have hquiet : state.attempts (.worker id action) = [] →
      next.Causal log history → next.Causal log (history ++ state.attempts (.worker id action))
      := by
    intro hnone hnext
    rwa [hnone, List.append_nil]
  cases hstep with
  | exit hstarting | enter hstarting | sleep hstarting | wake hstarting =>
      refine hquiet rfl (hcausal.setWorker hworker rfl (htracked.move ?_ trivial))
      exact fun msg hmem => .inl (hbuffer msg hmem)
  | @popSettled msg buffer hpopping hhead =>
      refine hquiet rfl (hcausal.setWorker hworker rfl (htracked.move ?_ trivial))
      exact fun msg hmem => .inl (hbuffer msg (hhead ▸ hmem))
  | @popPending msg buffer hpopping hhead =>
      refine hquiet rfl (hcausal.setWorker hworker rfl (htracked.move ?_ ?_))
      · exact fun msg hmem => .inl (hbuffer msg (hhead ▸ hmem))
      · exact ⟨by simp, by simp, by simp, by simp⟩
  | @drop msg hdropping =>
      have hbase : (state.forget msg.msgID).Causal log history :=
        hcausal.of_same rfl rfl rfl (.inl rfl)
      refine hquiet rfl (hbase.setWorker hworker rfl (htracked.move ?_ trivial))
      exact fun msg hmem => .inl (hbuffer msg hmem)
  | @result msg answered results subName policy ok hsending hpending hfirst =>
      have hmsg := hcurrent msg (by rw [hsending]; rfl)
      rw [hsending] at hphase
      have hattempts : state.attempts (.worker id (.result subName ok)) =
          [⟨⟨worker.queueName, msg.msgID, policy.subName⟩,
            policy.numberOfRetries.toInt, ok⟩] := by
        simp [attempts, hworker, hsending, hpending]
      rw [hattempts]
      have hlater := hcausal.mono (List.Subset.refl log)
        [⟨⟨worker.queueName, msg.msgID, policy.subName⟩, policy.numberOfRetries.toInt, ok⟩]
      have hbase : (if ok then state.deliver msg.msgID subName else state).Causal log
          (history ++ [⟨⟨worker.queueName, msg.msgID, policy.subName⟩,
            policy.numberOfRetries.toInt, ok⟩]) := by
        cases ok with
        | true => exact hlater.of_same rfl rfl rfl (.inl rfl)
        | false => exact hlater
      have hfound : (if ok then state.deliver msg.msgID subName else state).workers id =
          some worker := by
        cases ok with
        | true => exact hworker
        | false => exact hworker
      refine hbase.setWorker hfound rfl ((hlater.workers id worker hworker).move ?_ ?_)
      · intro other hmem
        left
        simpa [Worker.items, hsending, WorkerPhase.msg?] using hmem
      · exact hphase.result hmsg (hkeyed hmsg.published) hpending hfirst ok
  | @collect msg answered results hsending =>
      have hmsg := hcurrent msg (by rw [hsending]; rfl)
      rw [hsending] at hphase
      refine hquiet rfl (hcausal.setWorker hworker rfl (htracked.move ?_ ?_))
      · intro other hmem
        rcases List.mem_cons.mp hmem with rfl | hmem
        · exact .inr (QueueMsg.Answered.counted_collect hphase hmsg)
        · exact .inl (hbuffer other hmem)
      · exact QueueMsg.Answered.finished_collect hphase
  | discard hcollected =>
      refine hquiet rfl (hcausal.setWorker hworker rfl (htracked.move ?_ trivial))
      exact fun msg hmem => .inl (hbuffer msg hmem)
  | @unsettled msg finished hcollected | @propose msg finished hcollected =>
      rw [hcollected] at hphase
      refine hquiet rfl (hcausal.setWorker hworker rfl (htracked.move ?_ hphase))
      intro other hmem
      left
      simpa [Worker.items, hcollected, WorkerPhase.msg?] using hmem
  | @accept msg finished hacking =>
      rw [hacking] at hphase
      have hbase : (state.accept worker msg finished).Causal log history :=
        hcausal.of_same rfl rfl rfl (.inl rfl)
      refine hquiet rfl (hbase.setWorker hworker rfl (htracked.move ?_ hphase))
      intro other hmem
      left
      simpa [Worker.items, hacking, WorkerPhase.msg?] using hmem
  | @reject msg finished ok hacking =>
      refine hquiet rfl (hcausal.setWorker hworker rfl (htracked.move ?_ trivial))
      intro other hmem
      left
      simpa [Worker.items, hacking, WorkerPhase.msg?] using hmem
  | @forget msg finished hacked =>
      have hbase : (state.forget (msg.markAcked finished).msgID).Causal log history :=
        hcausal.of_same rfl rfl rfl (.inl rfl)
      refine hquiet rfl (hbase.setWorker hworker rfl (htracked.move ?_ trivial))
      exact fun msg hmem => .inl (hbuffer msg hmem)
  | @again msg finished hacked =>
      have hmsg := hcurrent msg (by rw [hacked]; rfl)
      exact hquiet rfl (hcausal.setWorker hworker rfl
        (htracked.requeue ⟨hmsg.published, hmsg.counted⟩))
  | @requeue msg hrejected =>
      have hmsg := hcurrent msg (by rw [hrejected]; rfl)
      exact hquiet rfl (hcausal.setWorker hworker rfl (htracked.requeue hmsg))

theorem Causal.schedule (hcausal : state.Causal log history) {queueName : GoString}
    {msg : MessageInfo} (hpublished : Published log queueName msg.msgID msg.subList) :
    (state.schedule queueName msg).Causal log history := by
  have hscheduled := scheduled_schedule state queueName msg
  generalize state.schedule queueName msg = next at hscheduled ⊢
  cases hscheduled with
  | dropped => exact hcausal
  | missing => exact hcausal.of_same rfl rfl rfl (.inl rfl)
  | @joined _ _ id worker hqueue hworker =>
      have hmarked : Causal log history
          { state with inFlightMsgs := insert msg.msgID state.inFlightMsgs } :=
        hcausal.of_same rfl rfl rfl (.inl rfl)
      have htracked := hcausal.workers id worker hworker
      refine hmarked.setWorker hworker rfl ⟨fun other hmem => ?_, htracked.phase⟩
      rw [Worker.items_enqueue] at hmem
      rcases List.mem_append.mp hmem with hmem | hmem
      · exact htracked.items other hmem
      · rw [List.mem_singleton.mp hmem,
          (hcausal.queues queueName id hqueue).2 worker hworker]
        exact QueueMsg.tracked_newQueueMsg hpublished
  | created =>
      constructor
      · intro id found hfound
        rcases found_of_setWorker hfound with ⟨_, rfl⟩ | ⟨_, hfound⟩
        · refine ⟨fun other hmem => ?_, trivial⟩
          rw [List.mem_singleton.mp hmem]
          exact QueueMsg.tracked_newQueueMsg hpublished
        · exact hcausal.workers id found hfound
      · exact hcausal.feeders
      · intro other id hother
        change (state.queues.insert queueName state.workerCount).lookup other = some id
          at hother
        rw [GoMap.lookup_insert_eq] at hother
        split_ifs at hother with hname
        · cases hother
          refine ⟨Nat.lt_succ_self _, fun found hfound => ?_⟩
          rcases found_of_setWorker hfound with ⟨_, rfl⟩ | ⟨hne, _⟩
          · exact hname.symm
          · contradiction
        · obtain ⟨hbound, hregistered⟩ := hcausal.queues other id hother
          refine ⟨Nat.lt_succ_of_lt hbound, fun found hfound => ?_⟩
          rcases found_of_setWorker hfound with ⟨rfl, _⟩ | ⟨_, hfound⟩
          · exact absurd hbound (Nat.lt_irrefl _)
          · exact hregistered found hfound

theorem published_of_pendingMessages {store : InMemoryStorage} (hstocked : Stocked log store)
    {queueName : GoString} {msg : MessageInfo}
    (hmem : msg ∈ (store.pendingMessages queueName).toOption.getD []) :
    Published log queueName msg.msgID msg.subList := by
  obtain ⟨held, hheld, rfl⟩ := holds_of_mem_pendingMessages hstocked.outstanding hmem
  exact hstocked.published _ _ _ hheld

theorem published_of_enqueue {store after : InMemoryStorage} (hstocked : Stocked log store)
    {queueName msgID payload : GoString} {subList : GoMap SubPolicy} {info : MessageInfo}
    (hpublished : Published log queueName msgID subList)
    (hnext : store.enqueue queueName msgID payload subList = .ok (info, after)) :
    Published log queueName info.msgID info.subList := by
  cases InMemoryStorage.enqueued_of_enqueue hnext with
  | @known queue existing hqueue hexisting =>
      have hholds : store.Holds queueName msgID existing := ⟨queue, hqueue, hexisting⟩
      rw [toMessageInfo, hstocked.outstanding.msgID _ _ _ hholds]
      exact hstocked.published _ _ _ hholds
  | stored | unwanted => exact hpublished

theorem Causal.of_feederStep (hcausal : state.Causal log history)
    (hstocked : Stocked log state.store) {id : Nat} {feeder : Feeder}
    (hfeeder : state.feeders id = some feeder) {action : FeederAction}
    (hstep : FeederStep state id feeder action next)
    (hcommitted : ∀ {queueName subList msgID payload}, feeder = .fetched queueName subList →
      action = .commit msgID payload → Published log queueName msgID subList) :
    next.Causal log history := by
  have htracked := hcausal.feeders id feeder hfeeder
  cases hstep with
  | @refused queueName msgID payload subList hfresh =>
      have hused : Causal log history { state with used := insert msgID state.used } :=
        hcausal.of_same rfl rfl rfl (.inl rfl)
      exact hused.setFeeder (by simp)
  | @commit queueName msgID payload subList msg store hfresh henqueue =>
      have hstored : Causal log history
          { state with used := insert msgID state.used, store } :=
        hcausal.of_same rfl rfl rfl (.inl rfl)
      refine hstored.setFeeder ?_
      rintro found hfound
      cases hfound
      exact published_of_enqueue hstocked (hcommitted rfl rfl) henqueue
  | handOver => exact (hcausal.schedule htracked).setFeeder (by simp)
  | readNames => exact hcausal.setFeeder (by simp [Feeder.Tracked])
  | readPending =>
      refine hcausal.setFeeder ?_
      rintro found hfound
      cases hfound
      exact fun msg hmem => published_of_pendingMessages hstocked hmem
  | @sweep queueName msg msgs queueNames =>
      refine (hcausal.schedule (htracked msg List.mem_cons_self)).setFeeder ?_
      rintro found hfound
      cases hfound
      exact fun later hmem => htracked later (List.mem_cons_of_mem _ hmem)

theorem Causal.of_tenureStep (hcausal : state.Causal log history) {event : DeliveryEvent}
    (hstep : TenureStep state event next) : next.Causal log history := by
  cases hstep with
  | gain | lose | advance => exact hcausal.of_same rfl rfl rfl (.inl rfl)
  | demote => exact hcausal.of_same rfl rfl rfl (.inr rfl)
  | openTenure hfree =>
      have hopened : Causal log history { state with
          runPhase := .waiting
          stopCh := some state.channels
          channels := state.channels + 1 } := hcausal.of_same rfl rfl rfl (.inl rfl)
      exact hopened.setFeeder (by simp [Feeder.Tracked])

theorem published_of_commit {id : Nat} {msgID payload : GoString}
    (hstep : state.step (.feeder id (.commit msgID payload)) = some next) :
    ∃ queueName subList, state.feeders id = some (.fetched queueName subList) ∧
      state.proposal (.feeder id (.commit msgID payload)) =
        some (.newEnqueue queueName msgID payload subList) ∧
      next.store = (FSM.applyCommand 0 state.store
        (.newEnqueue queueName msgID payload subList)).2 := by
  cases hfeeder : state.feeders id with
  | none => simp [step, hfeeder] at hstep
  | some feeder =>
      cases feeder with
      | fetched queueName subList =>
          simp only [step, hfeeder, stepFeeder] at hstep
          split_ifs at hstep with hready
          refine ⟨queueName, subList, rfl, by simp [proposal, hfeeder, hready.1], ?_⟩
          cases henqueue : state.store.enqueue queueName msgID payload subList with
          | error err =>
              rw [henqueue] at hstep
              cases hstep
              simp [FSM.applyCommand, Command.newEnqueue, henqueue, setFeeder]
          | ok result =>
              rw [henqueue] at hstep
              cases hstep
              simp [FSM.applyCommand, Command.newEnqueue, henqueue, setFeeder]
      | committed | starting | sweeping => simp [step, hfeeder, stepFeeder] at hstep

/-- A node's own steps change its store only with the command they have proposed. -/
theorem store_of_step {event : DeliveryEvent} (hevent : ∀ cmd, event ≠ .replicate cmd)
    (hstep : state.step event = some next) :
    next.store =
      match state.proposal event with
      | none => state.store
      | some cmd => (FSM.applyCommand 0 state.store cmd).2 := by
  cases stepped_of_step hstep with
  | @tenure _ _ hleadership htenure =>
      have hnone : state.proposal event = none := by
        cases event <;> first | rfl | contradiction
      rw [hnone]
      cases htenure <;> rfl
  | @replicate cmd => exact absurd rfl (hevent cmd)
  | fetch | tick => rfl
  | @feeder id feeder action _ hfeeder hfeederStep =>
      cases action with
      | commit msgID payload =>
          obtain ⟨queueName, subList, _, hproposal, hstore⟩ := published_of_commit hstep
          rw [hproposal]
          exact hstore
      | readNames | readPending =>
          cases hfeederStep
          rfl
      | schedule =>
          cases hfeederStep with
          | handOver | sweep => exact (schedule_store state _ _).1
  | @worker id worker action _ hworker hworkerStep =>
      cases hworkerStep with
      | exit | enter | sleep | popSettled | popPending | wake | drop | collect | discard
      | unsettled | propose | forget | again | requeue => rfl
      | @result _ _ _ _ _ ok =>
          cases ok with
          | true | false => rfl
      | @accept msg finished hphase hleading =>
          have hproposal : state.proposal (.worker id (.ack true)) =
              some (.newAck worker.queueName msg.msgID finished) := by
            simp only [proposal, hworker, hphase, hleading, if_true]
          rw [hproposal]
          rfl
      | @reject _ _ ok hphase hrejected =>
          cases ok with
          | false => rfl
          | true =>
              have hfollower : state.leading = false := by simpa using hrejected
              have hnone : state.proposal (.worker id (.ack true)) = none := by
                simp [proposal, hworker, hphase, hfollower]
              rw [hnone]
              rfl

theorem Causal.step (hcausal : state.Causal log history)
    (hkeyed : ∀ {queueName msgID subList}, Published log queueName msgID subList →
      KeyedByName subList)
    (hstocked : Stocked log state.store) {event : DeliveryEvent}
    (hproposal : ∀ cmd, state.proposal event = some cmd → cmd ∈ log)
    (hstep : state.step event = some next) :
    next.Causal log (history ++ state.attempts event) := by
  have hquiet : state.attempts event = [] → next.Causal log history →
      next.Causal log (history ++ state.attempts event) := by
    intro hnone hnext
    rwa [hnone, List.append_nil]
  cases stepped_of_step hstep with
  | @tenure _ _ hleadership htenure =>
      have hnone : state.attempts event = [] := by
        cases event <;> first | rfl | contradiction
      exact hquiet hnone (hcausal.of_tenureStep htenure)
  | replicate => exact hquiet rfl (hcausal.of_same rfl rfl rfl (.inl rfl))
  | @fetch id queueName subList hfree hsubs =>
      refine hquiet rfl (hcausal.setFeeder ?_)
      rintro found hfound
      cases hfound
      obtain ⟨queue, hqueue, rfl⟩ := Option.map_eq_some_iff.mp hsubs
      exact hstocked.outstanding.subs queueName queue hqueue
  | tick => exact hquiet rfl (hcausal.setFeeder (by simp [Feeder.Tracked]))
  | @feeder id feeder action _ hfeeder hfeederStep =>
      refine hquiet rfl (hcausal.of_feederStep hstocked hfeeder hfeederStep ?_)
      rintro queueName subList msgID payload rfl rfl
      obtain ⟨_, _, hfound, hcmd, _⟩ := published_of_commit hstep
      rw [hfeeder] at hfound
      cases hfound
      exact ⟨_, hproposal _ hcmd, rfl, rfl, rfl, rfl⟩
  | worker hworker hworkerStep => exact hcausal.of_workerStep hkeyed hworker hworkerStep

theorem Causal.grounded_proposal (hcausal : state.Causal log history) {event : DeliveryEvent}
    {cmd : Command} (hproposal : state.proposal event = some cmd) : cmd.Grounded history := by
  unfold proposal at hproposal
  split at hproposal
  next id msgID payload =>
      split at hproposal
      next queueName subList hfeeder =>
          split_ifs at hproposal
          cases hproposal
          constructor
          · exact fun _ => hcausal.feeders id _ hfeeder
          · intro htype
            contradiction
      next => contradiction
  next id =>
      split at hproposal
      next worker hworker =>
          split at hproposal
          next msg finished hphase =>
              split_ifs at hproposal
              cases hproposal
              have hfinished := (hcausal.workers id worker hworker).phase
              rw [hphase] at hfinished
              constructor
              · intro htype
                contradiction
              · exact fun _ => hfinished
          next => contradiction
      next => contradiction
  next => contradiction

end Delivery

/-- The attempt was made under the policy that the message was published with. -/
def UnderPolicy (log : List Command) (attempt : Attempt Share) : Prop :=
  ∃ subList policy, Published log attempt.key.queueName attempt.key.msgID subList ∧
    subList.lookup attempt.key.subName = some policy ∧
    attempt.budget = policy.numberOfRetries.toInt

theorem UnderPolicy.mono {attempt : Attempt Share} (hpolicies : UnderPolicy log attempt)
    {later : List Command} (hlog : log ⊆ later) : UnderPolicy later attempt := by
  obtain ⟨subList, policy, hpublished, hpolicy⟩ := hpolicies
  exact ⟨subList, policy, hpublished.mono hlog, hpolicy⟩

theorem Delivery.Causal.underPolicy {state : Delivery} (hcausal : state.Causal log history)
    (hkeyed : ∀ {queueName msgID subList}, Published log queueName msgID subList →
      KeyedByName subList)
    {event : DeliveryEvent} {attempt : Attempt Share}
    (hattempt : attempt ∈ state.attempts event) : UnderPolicy log attempt := by
  unfold Delivery.attempts at hattempt
  split at hattempt
  next id subName ok =>
      split at hattempt
      next worker hworker =>
          split at hattempt
          next msg answered results hphase =>
              split at hattempt
              next policy hpending =>
                  have hitem : msg ∈ worker.items := by
                    simp [Worker.items, hphase, WorkerPhase.msg?]
                  have hpublished :=
                    ((hcausal.workers id worker hworker).items msg hitem).published
                  have hpolicy := (QueueMsg.mem_pendingSubs.mp hpending).1
                  rw [List.mem_singleton.mp hattempt]
                  refine ⟨msg.subList, policy, hpublished, ?_, rfl⟩
                  dsimp only
                  rw [hkeyed hpublished subName policy hpolicy]
                  exact hpolicy
              next => contradiction
          next => contradiction
      next => contradiction
  next => contradiction

end Node

end SimonMQ.Dist
