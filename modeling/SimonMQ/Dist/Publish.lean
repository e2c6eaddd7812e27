import SimonMQ.Dist.Cluster

namespace SimonMQ.Dist

open SimonMQ.Go
open SimonMQ.Go.Json
open SimonMQ.Go.Utf8
open SimonMQ.Transition

/-! Which subscribers a publish reaches.  The subscriber list of a message is fixed
before its command is proposed, from the store of the node that took the request. -/

def InMemoryStorage.Subscribed (store : InMemoryStorage) (queueName subName : GoString) :
    Prop :=
  ∃ queue, store.queues.lookup queueName = some queue ∧ subName ∈ queue.subs

def Command.Removes (cmd : Command) (queueName subName : GoString) : Prop :=
  cmd.queueName = queueName ∧
    (cmd.type = .deleteQueue ∨ cmd.type = .deleteSubPolicy ∧ cmd.subName = subName)

namespace InMemoryStorage

variable {store : InMemoryStorage} {queueName subName : GoString}

theorem Subscribed.setQueue (hsubscribed : store.Subscribed queueName subName)
    {changed : GoString} {queue : QueueState}
    (hqueue : changed = queueName → subName ∈ queue.subs) :
    (store.setQueue changed queue).Subscribed queueName subName := by
  obtain ⟨found, hfound, hmem⟩ := hsubscribed
  by_cases hsame : queueName = changed
  · refine ⟨queue, ?_, hqueue hsame.symm⟩
    rw [InMemoryStorage.setQueue, GoMap.lookup_insert_eq, if_pos hsame]
  · refine ⟨found, ?_, hmem⟩
    rw [InMemoryStorage.setQueue, GoMap.lookup_insert_eq, if_neg hsame]
    exact hfound

theorem Subscribed.update (hsubscribed : store.Subscribed queueName subName)
    {changed : GoString} {old new : QueueState}
    (hold : store.queues.lookup changed = some old)
    (hkeeps : changed = queueName → subName ∈ old.subs → subName ∈ new.subs) :
    (store.setQueue changed new).Subscribed queueName subName := by
  refine hsubscribed.setQueue fun hsame => hkeeps hsame ?_
  obtain ⟨found, hfound, hmem⟩ := hsubscribed
  subst hsame
  cases hold.symm.trans hfound
  exact hmem

theorem Subscribed.createQueue (hsubscribed : store.Subscribed queueName subName)
    {name : GoString} {next : InMemoryStorage}
    (hnext : store.createQueue name = .ok next) :
    next.Subscribed queueName subName := by
  obtain ⟨hfree, rfl⟩ := createQueue_eq_ok hnext
  refine hsubscribed.setQueue fun hsame => ?_
  obtain ⟨found, hfound, _⟩ := hsubscribed
  rw [← hsame, hfree] at hfound
  contradiction

theorem Subscribed.deleteQueue (hsubscribed : store.Subscribed queueName subName)
    {name : GoString} {next : InMemoryStorage} (hother : name ≠ queueName)
    (hnext : store.deleteQueue name = .ok next) :
    next.Subscribed queueName subName := by
  obtain ⟨found, hfound, hmem⟩ := hsubscribed
  obtain rfl := deleteQueue_eq_ok hnext
  refine ⟨found, ?_, hmem⟩
  rw [GoMap.lookup_erase_eq, if_neg hother.symm]
  exact hfound

theorem Subscribed.putSubPolicy (hsubscribed : store.Subscribed queueName subName)
    {name : GoString} {policy : SubPolicy} {next : InMemoryStorage}
    (hnext : store.putSubPolicy name policy = .ok next) :
    next.Subscribed queueName subName := by
  obtain ⟨queue, hqueue, rfl⟩ := putSubPolicy_eq_ok hnext
  exact hsubscribed.update hqueue fun _ hmem => Finmap.mem_insert.mpr (.inr hmem)

theorem Subscribed.deleteSubPolicy (hsubscribed : store.Subscribed queueName subName)
    {name deleted : GoString} {next : InMemoryStorage}
    (hother : name = queueName → deleted ≠ subName)
    (hnext : store.deleteSubPolicy name deleted = .ok next) :
    next.Subscribed queueName subName := by
  obtain ⟨queue, hqueue, rfl⟩ := deleteSubPolicy_eq_ok hnext
  refine hsubscribed.update hqueue fun hsame hmem => ?_
  exact Finmap.mem_erase.mpr ⟨(hother hsame).symm, hmem⟩

theorem Subscribed.enqueue (hsubscribed : store.Subscribed queueName subName)
    {name msgID payload : GoString} {subList : GoMap SubPolicy} {info : MessageInfo}
    {next : InMemoryStorage}
    (hnext : store.enqueue name msgID payload subList = .ok (info, next)) :
    next.Subscribed queueName subName := by
  cases enqueued_of_enqueue hnext with
  | known => exact hsubscribed
  | unwanted => exact hsubscribed
  | stored hqueue =>
      have hcounted : ({ store with nextSeq := store.nextSeq + 1 } :
          InMemoryStorage).Subscribed queueName subName := hsubscribed
      exact hcounted.update hqueue fun _ hmem => hmem

theorem Subscribed.ack (hsubscribed : store.Subscribed queueName subName)
    (name msgID : GoString) (subNames : List GoString) :
    (store.ack name msgID subNames).Subscribed queueName subName := by
  have hacked := acked_ack store name msgID subNames
  generalize store.ack name msgID subNames = next at hacked ⊢
  cases hacked with
  | ignored => exact hsubscribed
  | completed hqueue | marked hqueue => exact hsubscribed.update hqueue fun _ hmem => hmem

end InMemoryStorage

theorem FSM.subscribed_of_putSubPolicy {index : UInt64} {store : InMemoryStorage}
    {cmd : Command} (htype : cmd.type = .putSubPolicy) {response : Response}
    (hok : unwrapResponse (FSM.applyCommand index store cmd).1 = .ok response) :
    (FSM.applyCommand index store cmd).2.Subscribed cmd.queueName cmd.policy.subName := by
  simp only [FSM.applyCommand, htype] at hok ⊢
  unfold InMemoryStorage.putSubPolicy at hok ⊢
  cases hlookup : store.queues.lookup cmd.queueName with
  | none =>
      rw [hlookup] at hok
      contradiction
  | some queue =>
      refine ⟨_, Finmap.lookup_insert _, ?_⟩
      exact Finmap.mem_insert.mpr (.inl rfl)

theorem FSM.subscribed_settle {store : InMemoryStorage} {queueName subName : GoString}
    (hsubscribed : store.Subscribed queueName subName)
    {result : Except StorageError InMemoryStorage}
    (hresult : ∀ next, result = .ok next → next.Subscribed queueName subName) :
    (FSM.settle store result).2.Subscribed queueName subName := by
  cases result with
  | ok next => exact hresult next rfl
  | error err => exact hsubscribed

theorem FSM.subscribed_applyCommand {store : InMemoryStorage}
    {queueName subName : GoString} (hsubscribed : store.Subscribed queueName subName)
    {cmd : Command} (hkeeps : ¬ cmd.Removes queueName subName) (index : UInt64) :
    (FSM.applyCommand index store cmd).2.Subscribed queueName subName := by
  unfold Command.Removes at hkeeps
  unfold FSM.applyCommand
  split
  · exact subscribed_settle hsubscribed fun next hnext => hsubscribed.createQueue hnext
  · rename_i htype
    refine subscribed_settle hsubscribed fun next hnext => ?_
    exact hsubscribed.deleteQueue (fun hsame => hkeeps ⟨hsame, .inl htype⟩) hnext
  · exact subscribed_settle hsubscribed fun next hnext => hsubscribed.putSubPolicy hnext
  · rename_i htype
    refine subscribed_settle hsubscribed fun next hnext => ?_
    exact hsubscribed.deleteSubPolicy
      (fun hsame hdeleted => hkeeps ⟨hsame, .inr ⟨htype, hdeleted⟩⟩) hnext
  · exact hsubscribed.ack _ _ _
  · split
    · exact hsubscribed.enqueue ‹_›
    · exact hsubscribed
  · exact hsubscribed

theorem FSM.subscribed_run {store : InMemoryStorage} {queueName subName : GoString}
    (hsubscribed : store.Subscribed queueName subName) {entries : List LogEntry}
    (hkeeps : ∀ entry ∈ entries, ∀ cmd, Command.decode entry.data = .ok cmd →
      ¬ cmd.Removes queueName subName) :
    (FSM.run store entries).2.Subscribed queueName subName := by
  induction entries generalizing store with
  | nil => exact hsubscribed
  | cons entry entries ih =>
      rw [run_cons]
      refine ih ?_ fun later hmem => hkeeps later (List.mem_cons_of_mem _ hmem)
      unfold FSM.apply
      split
      · exact hsubscribed
      · exact subscribed_applyCommand hsubscribed
          (hkeeps entry List.mem_cons_self _ ‹_›) entry.index

theorem Job.not_removes_of_drops {store : InMemoryStorage} {job : Job} {cmd : Command}
    (hcommand : job.command store = .ok cmd) {queueName subName : GoString}
    (hkeeps : job.drops queueName subName = false) :
    ¬ cmd.coerce.Removes (toValid queueName) (toValid subName) := by
  rintro ⟨hqueue, htype⟩
  cases job with
  | ack acked msgID subNames =>
      cases hcommand
      rcases htype with htype | ⟨htype, _⟩ <;> contradiction
  | http request =>
      cases request with
      | queueCreation created =>
          cases hcommand
          rcases htype with htype | ⟨htype, _⟩ <;> contradiction
      | queueDeletion deleted =>
          cases hcommand
          have hdiffers : toValid deleted ≠ toValid queueName := by
            simpa [Job.drops] using hkeeps
          exact hdiffers hqueue
      | enqueue published body uuid =>
          simp only [Job.command, Request.command] at hcommand
          split at hcommand
          · contradiction
          · cases hcommand
            rcases htype with htype | ⟨htype, _⟩ <;> contradiction
      | subPolicyCreation | subPolicyUpdate =>
          simp only [Job.command, Request.command] at hcommand
          split at hcommand
          · contradiction
          · cases hcommand
            rcases htype with htype | ⟨htype, _⟩ <;> contradiction
      | subPolicyDeletion queue deleted =>
          cases hcommand
          have hdiffers : toValid queue = toValid queueName →
              toValid deleted ≠ toValid subName := by
            simpa [Job.drops] using hkeeps
          rcases htype with htype | ⟨_, hdeleted⟩
          · contradiction
          · exact hdiffers hqueue hdeleted

namespace Cluster

variable {Node : Type}

def keeps (queueName subName : GoString) : ClusterEvent Node → Bool
  | .arrive _ _ job => !job.drops queueName subName
  | _ => true

def AllKeep (queueName subName : GoString) (cluster : Cluster Node) : Prop :=
  ∀ id handler, cluster.handlers id = some handler →
    handler.job.drops queueName subName = false

theorem AllKeep.of_stepped {cluster next : Cluster Node} {event : ClusterEvent Node}
    {queueName subName : GoString} (hkeep : AllKeep queueName subName cluster)
    (hevent : keeps queueName subName event = true)
    (hstepped : Stepped cluster event next) : AllKeep queueName subName next := by
  intro id handler hhandler
  rcases handler_origin hstepped hhandler with ⟨earlier, hearlier, hjob⟩ | ⟨node, rfl⟩
  · rw [← hjob]
    exact hkeep id earlier hearlier
  · simpa [keeps] using hevent

theorem keeps_of_committed {cluster : Cluster Node} (hsound : cluster.Sound)
    {queueName subName : GoString} (hkeep : AllKeep queueName subName cluster)
    {committed : CommittedEntry} (hmem : committed ∈ cluster.log) {cmd : Command}
    (hdecode : Command.decode committed.entry.data = .ok cmd) :
    ¬ cmd.Removes (toValid queueName) (toValid subName) := by
  obtain ⟨handler, proposed, hhandler, ⟨count, _, _, hcommand⟩, hencode⟩ :=
    hsound.log committed hmem
  rw [Command.decode_encode hencode] at hdecode
  cases hdecode
  exact Job.not_removes_of_drops hcommand (hkeep _ _ hhandler)

/-- From an accepted `PutSubPolicy` on, every longer prefix of the log has the
subscriber, unless some request asked to remove it. -/
theorem subscribed_of_accepted {cluster : Cluster Node} (hsound : cluster.Sound)
    {handler : Handler Node} {queueName : GoString} {policy : SubPolicy}
    (hputs : handler.job.Puts queueName policy)
    (hkeep : AllKeep queueName policy.subName cluster) {position count : Nat}
    (hcarries : cluster.Carries handler position)
    (haccepted : cluster.Accepted position) (hcount : position < count) :
    (storeAfter (cluster.log.take count)).Subscribed (toValid queueName)
      (toValid policy.subName) := by
  obtain ⟨committed, cmd, hfound, ⟨_, _, _, hcommand⟩, hencode⟩ := hcarries
  obtain ⟨response, hresponse, hok⟩ := haccepted
  cases (hputs _).symm.trans hcommand
  have hdecode := Command.decode_encode hencode
  -- The prefix is what was applied before the put, the put, and a rest that keeps it.
  have hsplit : cluster.log.take count =
      cluster.log.take position ++
        committed :: (cluster.log.take count).drop (position + 1) := by
    have hprefix : (cluster.log.take count)[position]? = some committed := by
      rw [List.getElem?_take_of_lt hcount]
      exact hfound
    obtain ⟨hbound, hget⟩ := List.getElem?_eq_some_iff.mp hprefix
    conv_lhs => rw [← List.take_append_drop position (cluster.log.take count)]
    rw [List.drop_eq_getElem_cons hbound, hget, List.take_take,
      Nat.min_eq_left (Nat.le_of_lt hcount)]
  rw [storeAfter, hsplit, List.map_append, FSM.run_append, List.map_cons, FSM.run_cons]
  apply FSM.subscribed_run
  · simp only [responseAt, hfound, Option.map_some, Option.some.injEq, FSM.apply,
      hdecode] at hresponse
    rw [← hresponse] at hok
    simp only [FSM.apply, hdecode]
    exact FSM.subscribed_of_putSubPolicy rfl hok
  · intro entry hentry cmd hcmd
    obtain ⟨later, hlater, rfl⟩ := List.mem_map.mp hentry
    exact keeps_of_committed hsound hkeep
      (List.mem_of_mem_take (List.mem_of_mem_drop hlater)) hcmd

theorem subList_of_publish {cluster : Cluster Node} {handler : Handler Node}
    {queueName body uuid : GoString}
    (hjob : handler.job = .http (.enqueue queueName body uuid)) {cmd : Command}
    (hprepared : cluster.Prepared handler cmd) {data : Bytes}
    (hencode : cmd.encode = .ok data) :
    ∃ count queue, handler.arrivedAt ≤ count ∧
      (storeAfter (cluster.log.take count)).queues.lookup queueName = some queue ∧
      toValid queueName = queueName ∧
      ∃ decoded, Command.decode data = .ok decoded ∧ decoded.type = .enqueue ∧
        decoded.subList = queue.subs := by
  obtain ⟨count, _, harrived, hcommand⟩ := hprepared
  rw [hjob] at harrived hcommand
  simp only [Job.command, Request.command, InMemoryStorage.fetchSubList] at hcommand
  cases hlookup : (storeAfter (cluster.log.take count)).queues.lookup queueName with
  | none => simp [hlookup] at hcommand
  | some queue =>
      simp only [hlookup, Option.map_some, Except.ok.injEq] at hcommand
      have hstorable : (storeAfter (cluster.log.take count)).Storable :=
        FSM.run_invariant FSM.storable_apply InMemoryStorage.storable_empty _
      obtain ⟨hname, hqueue⟩ := hstorable.queues queueName queue hlookup
      refine ⟨count, queue, harrived rfl, hlookup, ?_, cmd.coerce,
        Command.decode_encode hencode, ?_, ?_⟩
      · rw [← hname]
        exact flatten_runes_of_valid hqueue.name
      · rw [← hcommand]
        rfl
      · rw [← hcommand]
        exact coerceMap_of_validSubs hqueue.subs

variable [DecidableEq Node]

theorem Sound.exec {cluster final : Cluster Node} (hsound : cluster.Sound)
    {events : List (ClusterEvent Node)} (hmeets : Meets step CaughtUp cluster events)
    (hexec : exec step cluster events = some final) : final.Sound :=
  exec_invariant
    (fun hsound hcaught hstep => hsound.of_stepped hcaught (stepped_of_step hstep))
    hsound hmeets hexec

theorem extends_of_exec {cluster final : Cluster Node}
    {events : List (ClusterEvent Node)}
    (hexec : exec step cluster events = some final) : Extends cluster final :=
  exec_relates Extends.refl Extends.trans
    (fun hstep => extends_of_stepped (stepped_of_step hstep)) hexec

theorem allKeep_of_exec {queueName subName : GoString} {final : Cluster Node}
    {events : List (ClusterEvent Node)}
    (hevents : ∀ event ∈ events, keeps queueName subName event = true)
    (hexec : exec step initial events = some final) :
    AllKeep queueName subName final := by
  refine exec_invariant ?_ ?_ (meets_of_forall hevents initial) hexec
  · exact fun hkeep hevent hstep =>
      AllKeep.of_stepped hkeep hevent (stepped_of_step hstep)
  · intro id handler hfound
    cases hfound

/-- A publish reaches every subscriber that was acknowledged before it arrived and
that nobody asked to remove, provided its node had caught up with the log by the
time it read the subscriber list. -/
theorem acknowledged_subscriber_gets_publish
    {before after : List (ClusterEvent Node)} {earlier final : Cluster Node}
    {putId publishId : Nat} {node : Node} {queueName body uuid : GoString}
    {policy : SubPolicy} {handler : Handler Node} {committed : CommittedEntry}
    (hbefore : exec step initial before = some earlier)
    (hput : earlier.handlers putId = some handler)
    (hputs : handler.job.Puts queueName policy)
    (hacknowledged : handler.phase.isAcknowledged = true)
    (hafter : exec step earlier
      (.arrive publishId node (.http (.enqueue queueName body uuid)) :: after) =
        some final)
    (hkeeps : ∀ event ∈ before ++ after,
      keeps queueName policy.subName event = true)
    (hcaught : Meets step CaughtUp initial
      (before ++ .arrive publishId node (.http (.enqueue queueName body uuid)) :: after))
    (hname : Utf8.Valid policy.subName)
    (hcommitted : committed ∈ final.log) (hpublish : committed.handler = publishId) :
    ∃ cmd, Command.decode committed.entry.data = .ok cmd ∧ cmd.type = .enqueue ∧
      policy.subName ∈ cmd.subList := by
  obtain ⟨hcaughtBefore, hcaughtAfter⟩ := meets_append hcaught hbefore
  have hearlierSound : earlier.Sound := sound_initial.exec hcaughtBefore hbefore
  have hsound : final.Sound := hearlierSound.exec hcaughtAfter hafter
  have hkeep : AllKeep queueName policy.subName final := by
    refine allKeep_of_exec ?_ (exec_append.mpr ⟨earlier, hbefore, hafter⟩)
    intro event hmem
    rcases List.mem_append.mp hmem with hmem | hmem
    · exact hkeeps event (List.mem_append_left _ hmem)
    · rcases List.mem_cons.mp hmem with rfl | hmem
      · rfl
      · exact hkeeps event (List.mem_append_right _ hmem)
  obtain ⟨position, hcarries, haccepted⟩ :=
    accepted_of_isAcknowledged (hearlierSound.phase putId handler hput) hacknowledged
  have hposition : position < earlier.log.length := by
    obtain ⟨_, _, hfound, _⟩ := hcarries
    exact (List.getElem?_eq_some_iff.mp hfound).1
  obtain ⟨next, harrive, hrest⟩ := exec_cons.mp hafter
  have hextends := extends_of_exec hafter
  have harrived : next.handlers publishId = some
      { node, job := .http (.enqueue queueName body uuid),
        arrivedAt := earlier.log.length, phase := .received } := by
    simp only [step] at harrive
    split_ifs at harrive
    cases harrive
    simp [setPhase]
  obtain ⟨publisher, hpublisher, hjob, hstamp⟩ :=
    (extends_of_exec hrest).handlers publishId _ harrived
  obtain ⟨found, cmd, hfound, hprepared, hencode⟩ := hsound.log committed hcommitted
  rw [hpublish, hpublisher] at hfound
  cases hfound
  obtain ⟨count, queue, hcount, hlookup, hvalid, decoded, hdecode, htype, hsubs⟩ :=
    subList_of_publish hjob hprepared hencode
  obtain ⟨subscribed, hsubscribed, hmem⟩ := subscribed_of_accepted hsound hputs hkeep
    (hcarries.mono hextends.log) (haccepted.mono hextends.log)
    (Nat.lt_of_lt_of_le hposition (hstamp ▸ hcount))
  rw [hvalid] at hsubscribed
  cases hlookup.symm.trans hsubscribed
  rw [flatten_runes_of_valid hname] at hmem
  exact ⟨decoded, hdecode, htype, hsubs ▸ hmem⟩

/-! Two nodes, the second of which becomes leader.  In `laggingAfter` it takes the
publish before it has applied the subscriber; in `caughtUpAfter` it applies it first. -/

def sampleQueue : GoString := lit "orders"

def putRequest : Request := .subPolicyCreation sampleQueue (encodeSubPolicy (billingPolicy 3))

def publishRequest : Request := .enqueue sampleQueue (lit "order 1") (lit "a")

def failoverBefore : List (ClusterEvent Bool) :=
  [.elect false,
    .arrive 0 false (.http (.queueCreation sampleQueue)),
    .prepare 0, .propose 0, .commit 0 1, .applyNext false, .applyNext true, .answer 0,
    .arrive 1 false (.http putRequest),
    .prepare 1, .propose 1, .commit 1 2, .applyNext false, .answer 1,
    .elect true]

def laggingAfter : List (ClusterEvent Bool) :=
  [.prepare 2, .propose 2, .commit 2 3, .applyNext true, .applyNext true, .answer 2]

def caughtUpAfter : List (ClusterEvent Bool) :=
  [.applyNext true, .prepare 2, .propose 2, .commit 2 3, .applyNext true, .answer 2]

theorem puts_putRequest : (Job.http putRequest).Puts sampleQueue (billingPolicy 3) := by
  intro store
  have hvalid : (billingPolicy 3).Valid := ⟨by decide +kernel, by decide +kernel⟩
  simp only [Job.command, putRequest, Request.command,
    decodeSubPolicy_encodeSubPolicy, SubPolicy.coerce_of_valid hvalid]

/-- What the run shows: whether the put and the publish were acknowledged, and
whether the third entry is the publish and names the subscriber. -/
def failoverOutcome (after : List (ClusterEvent Bool)) :
    Option (Bool × Bool × Bool × Bool) :=
  (exec step initial failoverBefore).bind fun earlier =>
  (earlier.handlers 1).bind fun handler =>
  (exec step earlier (.arrive 2 true (.http publishRequest) :: after)).bind fun final =>
  (final.handlers 2).bind fun publisher =>
  (final.log[2]?).bind fun committed =>
  (Command.decode committed.entry.data).toOption.map fun cmd =>
    (decide (handler.job = .http putRequest) && handler.phase.isAcknowledged,
      publisher.phase.isAcknowledged, committed.handler = 2,
      (billingPolicy 3).subName ∈ cmd.subList)

theorem failover_run {after : List (ClusterEvent Bool)} {reached : Bool}
    (houtcome : failoverOutcome after = some (true, true, true, reached)) :
    ∃ earlier final handler publisher committed cmd,
      exec step initial failoverBefore = some earlier ∧
      earlier.handlers 1 = some handler ∧
      handler.job.Puts sampleQueue (billingPolicy 3) ∧
      handler.phase.isAcknowledged = true ∧
      exec step earlier (.arrive 2 true (.http publishRequest) :: after) = some final ∧
      final.handlers 2 = some publisher ∧ publisher.phase.isAcknowledged = true ∧
      committed ∈ final.log ∧ committed.handler = 2 ∧
      Command.decode committed.entry.data = .ok cmd ∧
      ((billingPolicy 3).subName ∈ cmd.subList ↔ reached = true) := by
  obtain ⟨earlier, hearlier, hrest⟩ := Option.bind_eq_some_iff.mp houtcome
  obtain ⟨handler, hhandler, hrest⟩ := Option.bind_eq_some_iff.mp hrest
  obtain ⟨final, hfinal, hrest⟩ := Option.bind_eq_some_iff.mp hrest
  obtain ⟨publisher, hpublisher, hrest⟩ := Option.bind_eq_some_iff.mp hrest
  obtain ⟨committed, hcommitted, hrest⟩ := Option.bind_eq_some_iff.mp hrest
  obtain ⟨cmd, hcmd, hrest⟩ := Option.map_eq_some_iff.mp hrest
  simp only [Prod.mk.injEq, Bool.and_eq_true, decide_eq_true_eq] at hrest
  obtain ⟨⟨hjob, hput⟩, hpublish, hid, hreached⟩ := hrest
  refine ⟨earlier, final, handler, publisher, committed, cmd, hearlier, hhandler, ?_,
    hput, hfinal, hpublisher, hpublish, List.mem_of_getElem? hcommitted, hid, ?_, ?_⟩
  · rw [hjob]
    exact puts_putRequest
  · cases hdecode : Command.decode committed.entry.data with
    | error err => simp [hdecode, Except.toOption] at hcmd
    | ok decoded =>
        rw [hdecode] at hcmd
        cases hcmd
        rfl
  · rw [← hreached, decide_eq_true_eq]

/-- The publish of a leader that has not yet applied an acknowledged subscriber is
committed, and acknowledged, without that subscriber. -/
theorem lagging_leader_publishes_without_subscriber :
    ∃ earlier final handler publisher committed cmd,
      exec step initial failoverBefore = some earlier ∧
      earlier.handlers 1 = some handler ∧
      handler.job.Puts sampleQueue (billingPolicy 3) ∧
      handler.phase.isAcknowledged = true ∧
      exec step earlier (.arrive 2 true (.http publishRequest) :: laggingAfter) =
        some final ∧
      (∀ event ∈ failoverBefore ++ laggingAfter,
        keeps sampleQueue (billingPolicy 3).subName event = true) ∧
      Utf8.Valid (billingPolicy 3).subName ∧
      final.handlers 2 = some publisher ∧ publisher.phase.isAcknowledged = true ∧
      committed ∈ final.log ∧ committed.handler = 2 ∧
      Command.decode committed.entry.data = .ok cmd ∧
      (billingPolicy 3).subName ∉ cmd.subList := by
  have houtcome : failoverOutcome laggingAfter = some (true, true, true, false) := by
    decide +kernel
  obtain ⟨earlier, final, handler, publisher, committed, cmd, hearlier, hhandler, hputs,
    hput, hfinal, hpublisher, hpublish, hmem, hid, hdecode, hreached⟩ :=
    failover_run houtcome
  exact ⟨earlier, final, handler, publisher, committed, cmd, hearlier, hhandler, hputs,
    hput, hfinal, by decide +kernel, by decide +kernel, hpublisher, hpublish, hmem, hid,
    hdecode, by simp [hreached]⟩

/-- The same failover once the new leader has applied the subscriber. -/
theorem caught_up_leader_reaches_subscriber :
    ∃ earlier final committed cmd,
      exec step initial failoverBefore = some earlier ∧
      exec step earlier (.arrive 2 true (.http publishRequest) :: caughtUpAfter) =
        some final ∧
      committed ∈ final.log ∧ committed.handler = 2 ∧
      Command.decode committed.entry.data = .ok cmd ∧
      (billingPolicy 3).subName ∈ cmd.subList := by
  have houtcome : failoverOutcome caughtUpAfter = some (true, true, true, true) := by
    decide +kernel
  obtain ⟨earlier, final, handler, publisher, committed, cmd, hearlier, hhandler, hputs,
    hput, hfinal, hpublisher, hpublish, hmem, hid, hdecode, hreached⟩ :=
    failover_run houtcome
  obtain ⟨decoded, hdecoded, _, hsubscriber⟩ :=
    acknowledged_subscriber_gets_publish hearlier hhandler hputs hput hfinal
      (by decide +kernel) (by decide +kernel) (by decide +kernel) hmem hid
  exact ⟨earlier, final, committed, decoded, hearlier, hfinal, hmem, hid, hdecoded,
    hsubscriber⟩

end Cluster

end SimonMQ.Dist
