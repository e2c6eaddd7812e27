import SimonMQ.Push.Pass
import SimonMQ.Push.Rings

namespace SimonMQ.Push

open SimonMQ.Go
open SimonMQ.Simple (HoldAll runRings)
open SimonMQ.Transition

/-! The registry of queues and their subscribers, in every reachable state. -/

/-- What `isValidSubMetadata` and the default make sure of. -/
structure PolicyOk (policy : SubPolicy) : Prop where
  named : policy.subName ≠ []
  addressed : policy.subURL ≠ []
  retries_nonneg : 0 ≤ policy.numberOfRetries.toInt
  retries_le : policy.numberOfRetries.toInt ≤ 100

/-- Checked policies, each under the name of its subscriber. -/
def SubscribersOk (policies : GoMap SubPolicy) : Prop :=
  ∀ name policy, policies.lookup name = some policy → policy.subName = name ∧ PolicyOk policy

theorem policyOk_of_isValid {metadata : SubPolicy}
    (hvalid : isValidSubMetadata metadata = true) :
    PolicyOk (initializeDefaultSubMetadataFields metadata) := by
  unfold isValidSubMetadata at hvalid
  split_ifs at hvalid with hname hurl hretries
  rw [gt_iff_lt, Int64.not_lt, Int64.le_iff_toInt_le] at hretries
  unfold initializeDefaultSubMetadataFields
  split_ifs with hnegative
  · have hdefault : (3 : Int64).toInt = 3 := rfl
    exact ⟨hname, hurl, by rw [hdefault]; decide, by rw [hdefault]; decide⟩
  · rw [Int64.not_lt, Int64.le_iff_toInt_le] at hnegative
    exact ⟨hname, hurl, hnegative, hretries⟩

namespace SubscribersOk

variable {policies : GoMap SubPolicy}

theorem keyed (hok : SubscribersOk policies) : KeyedByName policies :=
  fun name policy hpolicy => (hok name policy hpolicy).1

theorem put (hok : SubscribersOk policies) {metadata : SubPolicy}
    (hvalid : isValidSubMetadata metadata = true) :
    SubscribersOk (policies.insert metadata.subName
      (initializeDefaultSubMetadataFields metadata)) := by
  intro name policy hpolicy
  rw [GoMap.lookup_insert_eq] at hpolicy
  split_ifs at hpolicy with hname
  · cases hpolicy
    rw [initializeDefaultSubMetadataFields_subName]
    exact ⟨hname.symm, policyOk_of_isValid hvalid⟩
  · exact hok name policy hpolicy

theorem erase (hok : SubscribersOk policies) (subName : GoString) :
    SubscribersOk (policies.erase subName) := by
  intro name policy hpolicy
  rw [GoMap.lookup_erase_eq] at hpolicy
  split_ifs at hpolicy
  exact hok name policy hpolicy

end SubscribersOk

theorem QueueMsg.lookup_policyByName {msg : QueueMsg} {policies : GoMap SubPolicy}
    {name : GoString} {policy : SubPolicy} :
    (msg.policyByName policies).lookup name = some policy ↔
      policies.lookup name = some policy ∧ name ∉ msg.ackedSubs := by
  rw [QueueMsg.policyByName, GoMap.lookup_retain, Option.filter_eq_some_iff]
  simp

/-- The worker sends to checked subscribers, none of which has acked. -/
structure Sending (policyByName : GoMap SubPolicy) (msg : QueueMsg) : Prop where
  subscribers : SubscribersOk policyByName
  pending : ∀ name policy, policyByName.lookup name = some policy → name ∉ msg.ackedSubs

structure Queue.Ok (q : Queue) : Prop where
  subscribers : SubscribersOk q.subPolicies
  sending : ∀ {policyByName msg}, q.worker = .sending policyByName msg →
    Sending policyByName msg
  /-- no wakeup is lost -/
  token : q.worker = .waiting → q.buf ≠ [] → q.hasWork = true
  returned : q.worker = .returned → q.isClosed = true

namespace Queue.Ok

variable {q : Queue}

theorem newQueue (name : GoString) : (newQueue name).Ok where
  subscribers := by
    intro name policy hpolicy
    simp [Push.newQueue] at hpolicy
  sending := by simp [Push.newQueue]
  token := by simp [Push.newQueue]
  returned := by simp [Push.newQueue]

theorem add (hok : q.Ok) (msg : QueueMsg) : (q.add msg).Ok :=
  ⟨hok.subscribers, hok.sending, fun _ _ => rfl, hok.returned⟩

theorem closed (hok : q.Ok) : Queue.Ok { q with isClosed := true } :=
  ⟨hok.subscribers, hok.sending, hok.token, fun _ => rfl⟩

theorem edited (hok : q.Ok) {policies : GoMap SubPolicy}
    (hpolicies : SubscribersOk policies) : Queue.Ok { q with subPolicies := policies } :=
  ⟨hpolicies, hok.sending, hok.token, hok.returned⟩

theorem moved (hok : q.Ok) {move : Move} {next : Queue} (hmoved : Moved q move next) :
    next.Ok := by
  cases hmoved with
  | idled hworker hbuf =>
      exact ⟨hok.subscribers, by simp, fun _ hsome => absurd hbuf hsome, by simp⟩
  | sent hworker hsome =>
      refine ⟨hok.subscribers, fun {policyByName msg} hsending => ?_, by simp, by simp⟩
      cases hsending
      exact ⟨fun name policy hpolicy =>
          hok.subscribers name policy (QueueMsg.lookup_policyByName.mp hpolicy).1,
        fun name policy hpolicy => (QueueMsg.lookup_policyByName.mp hpolicy).2⟩
  | exited hworker hclosed =>
      exact ⟨hok.subscribers, by simp, by simp, fun _ => hclosed⟩
  | popped | dropped | retained | finished | requeued | woken =>
      exact ⟨hok.subscribers, by simp, by simp, by simp⟩

theorem no_panic (hok : q.Ok) {move : Move} {panic : Panic} :
    q.move move ≠ some (.error panic) := by
  intro hmove
  obtain ⟨policyByName, msg, order, reply, -, hworker, hdeliver⟩ :=
    deliver_of_move_error hmove
  obtain ⟨pass, hpass, _⟩ :=
    QueueMsg.deliver_spec (hok.sending hworker).subscribers.keyed msg order reply
  rw [hpass] at hdeliver
  contradiction

end Queue.Ok

@[simp] theorem Moved.name_eq {q next : Queue} {move : Move} (hmoved : Moved q move next) :
    next.name = q.name := by
  cases hmoved <;> rfl

theorem Moved.isClosed_eq {q next : Queue} {move : Move} (hmoved : Moved q move next) :
    next.isClosed = q.isClosed := by
  cases hmoved <;> rfl

/-- The registered objects are the open ones, and `numQueues` counts them. -/
structure Broker.Sound (b : Broker) : Prop where
  queues_ok : ∀ q ∈ b.objects, q.Ok
  registered : ∀ {name object}, b.queues.lookup name = some object →
    ∃ q, b.objects[object]? = some q ∧ q.name = name ∧ q.isClosed = false
  unclosed : ∀ {object q}, b.objects[object]? = some q → q.isClosed = false →
    b.queues.lookup q.name = some object
  count : b.numQueues = b.queues.len
  room : b.numQueues ≤ 128
  calm : b.panicked = none

namespace Broker.Sound

variable {b : Broker}

theorem initial : Sound {} where
  queues_ok := by simp
  registered := by simp
  unclosed := by simp
  count := by rfl
  room := by decide
  calm := rfl

theorem setObject (hsound : b.Sound) {object : Nat} {q next : Queue}
    (hobject : b.objects[object]? = some q) (hok : next.Ok) (hname : next.name = q.name)
    (hclosed : next.isClosed = q.isClosed) : (b.setObject object next).Sound := by
  have hlt : object < b.objects.length := (List.getElem?_eq_some_iff.mp hobject).1
  refine ⟨fun other hmem => ?_, fun {name found} hfound => ?_,
    fun {found other} hother hopen => ?_, hsound.count, hsound.room, hsound.calm⟩
  · rcases List.mem_or_eq_of_mem_set hmem with hold | rfl
    · exact hsound.queues_ok other hold
    · exact hok
  · obtain ⟨old, hold, hnamed, hopen⟩ := hsound.registered hfound
    rw [Broker.setObject, List.getElem?_set]
    split_ifs with heq
    · rw [← heq, hobject] at hold
      cases hold
      exact ⟨next, rfl, hname.trans hnamed, hclosed.trans hopen⟩
    · exact ⟨old, hold, hnamed, hopen⟩
  · rw [Broker.setObject, List.getElem?_set] at hother
    split_ifs at hother with heq
    · cases hother
      rw [hname]
      exact hsound.unclosed (heq ▸ hobject) (hclosed ▸ hopen)
    · exact hsound.unclosed hother hopen

theorem register (hsound : b.Sound) {name : GoString}
    (habsent : b.queues.lookup name = none) (hroom : b.numQueues < 128) :
    Sound { b with
      objects := b.objects ++ [newQueue name]
      queues := b.queues.insert name b.objects.length
      numQueues := b.numQueues + 1 } := by
  have hnew : name ∉ b.queues.keys := fun hmem =>
    Finmap.lookup_eq_none.mp habsent (Finmap.mem_keys.mp hmem)
  refine ⟨fun q hmem => ?_, fun {other object} hfound => ?_,
    fun {object q} hobject hopen => ?_, ?_, hroom, hsound.calm⟩
  · rcases List.mem_append.mp hmem with hold | hnew
    · exact hsound.queues_ok q hold
    · rw [List.mem_singleton.mp hnew]
      exact Queue.Ok.newQueue name
  · rw [GoMap.lookup_insert_eq] at hfound
    split_ifs at hfound with heq
    · cases hfound
      exact ⟨newQueue name, List.getElem?_concat_length, heq.symm, rfl⟩
    · obtain ⟨q, hobject, hnamed, hopen⟩ := hsound.registered hfound
      have hlt := (List.getElem?_eq_some_iff.mp hobject).1
      exact ⟨q, (List.getElem?_append_left hlt).trans hobject, hnamed, hopen⟩
  · rw [GoMap.lookup_insert_eq]
    rw [List.getElem?_append] at hobject
    split_ifs at hobject with hlt
    · have hold := hsound.unclosed hobject hopen
      rw [if_neg (by rintro rfl; rw [habsent] at hold; contradiction), hold]
    · obtain ⟨hindex, hq⟩ := List.getElem?_eq_some_iff.mp hobject
      rw [List.length_singleton] at hindex
      have hplace : object = b.objects.length := by omega
      subst hplace
      simp only [Nat.sub_self, List.getElem_cons_zero] at hq
      subst hq
      exact if_pos rfl
  · change b.numQueues + 1 = ((b.queues.insert name b.objects.length).keys.card : Int)
    rw [GoMap.keys_insert, Finset.card_insert_of_notMem hnew, hsound.count]
    rfl

theorem unregister (hsound : b.Sound) {name : GoString} {object : Nat} {q : Queue}
    (hfound : b.queues.lookup name = some object) (hobject : b.objects[object]? = some q) :
    Sound { b with
      queues := b.queues.erase name
      numQueues := b.numQueues - 1
      objects := b.objects.set object { q with isClosed := true } } := by
  have hlt : object < b.objects.length := (List.getElem?_eq_some_iff.mp hobject).1
  have hkey : name ∈ b.queues.keys :=
    Finmap.mem_keys.mpr (Finmap.mem_iff.mpr ⟨object, hfound⟩)
  have hcard : (b.queues.erase name).keys.card = b.queues.keys.card - 1 := by
    rw [Finmap.keys_erase, Finset.card_erase_of_mem hkey]
  have hpos := Finset.card_pos.mpr ⟨name, hkey⟩
  obtain ⟨_, hcurrent, hnamed, _⟩ := hsound.registered hfound
  cases hobject.symm.trans hcurrent
  have hcount := hsound.count
  rw [GoMap.len] at hcount
  refine ⟨fun other hmem => ?_, fun {other place} hplace => ?_,
    fun {place other} hplace hopen => ?_, ?_, ?_, hsound.calm⟩
  · rcases List.mem_or_eq_of_mem_set hmem with hold | rfl
    · exact hsound.queues_ok other hold
    · exact (hsound.queues_ok q (List.mem_of_getElem? hobject)).closed
  · rw [GoMap.lookup_erase_eq] at hplace
    split_ifs at hplace with hother
    obtain ⟨old, hold, holdName, holdOpen⟩ := hsound.registered hplace
    refine ⟨old, ?_, holdName, holdOpen⟩
    rw [List.getElem?_set, if_neg, hold]
    rintro rfl
    cases hobject.symm.trans hold
    exact hother (holdName.symm.trans hnamed)
  · rw [List.getElem?_set] at hplace
    split_ifs at hplace with heq
    · cases hplace
      contradiction
    · have hold := hsound.unclosed hplace hopen
      rw [GoMap.lookup_erase_eq, if_neg, hold]
      intro hsame
      rw [hsame, hfound] at hold
      exact heq (Option.some.inj hold)
  · rw [GoMap.len, hcard]
    change b.numQueues - 1 = _
    omega
  · change b.numQueues - 1 ≤ 128
    have := hsound.room
    omega

theorem step (hsound : b.Sound) {event : BrokerEvent} {next : Broker}
    (hstep : b.step event = some next) : next.Sound := by
  cases stepped_of_step hstep with
  | refused => exact hsound
  | registered habsent hroom => exact hsound.register habsent hroom
  | unregistered hfound hobject => exact hsound.unregister hfound hobject
  | closedTwice hfound hobject hclosed =>
      obtain ⟨q, hcurrent, _, hopen⟩ := hsound.registered hfound
      cases hobject.symm.trans hcurrent
      rw [hopen] at hclosed
      contradiction
  | published hfound hobject =>
      exact hsound.setObject hobject
        ((hsound.queues_ok _ (List.mem_of_getElem? hobject)).add _) rfl rfl
  | subscribed hfound hobject hvalid =>
      have hok := hsound.queues_ok _ (List.mem_of_getElem? hobject)
      exact hsound.setObject hobject (hok.edited (hok.subscribers.put hvalid)) rfl rfl
  | unsubscribed hfound hobject =>
      have hok := hsound.queues_ok _ (List.mem_of_getElem? hobject)
      exact hsound.setObject hobject (hok.edited (hok.subscribers.erase _)) rfl rfl
  | worked hobject hmoved =>
      exact hsound.setObject hobject
        ((hsound.queues_ok _ (List.mem_of_getElem? hobject)).moved hmoved)
        hmoved.name_eq hmoved.isClosed_eq
  | crashed hobject hmove =>
      exact absurd hmove (hsound.queues_ok _ (List.mem_of_getElem? hobject)).no_panic

theorem exec (hsound : b.Sound) {events : List BrokerEvent} {final : Broker}
    (hexec : Transition.exec Broker.step b events = some final) : final.Sound :=
  exec_preserves (fun hstate hnext => hstate.step hnext) hsound hexec

end Broker.Sound

/-- Whatever is requested and whatever the workers do: the registered objects are the open
ones, each under its own name, `numQueues` counts them and stays within the limit, every
stored policy is a checked one under its own name, and nothing panics, in the rings
neither, which hold the messages in their order. -/
theorem registry_of_reachable {events : List BrokerEvent} {b : Broker}
    (hexec : exec Broker.step {} events = some b) :
    b.panicked = none ∧
      (∀ name object, b.queues.lookup name = some object ↔
        ∃ q, b.objects[object]? = some q ∧ q.name = name ∧ q.isClosed = false) ∧
      b.numQueues = b.queues.len ∧ b.numQueues ≤ 128 ∧
      (∀ q ∈ b.objects, SubscribersOk q.subPolicies) ∧
      ∃ rings, runRings [] (trace Broker.step Broker.bufferOps {} events) =
          .ok (rings, trace Broker.step Broker.taken {} events) ∧
        HoldAll rings b.bufs := by
  have hsound := Broker.Sound.initial.exec hexec
  refine ⟨hsound.calm, fun name object => ⟨hsound.registered, ?_⟩, hsound.count, hsound.room,
    fun q hmem => (hsound.queues_ok q hmem).subscribers, Broker.exists_rings hexec⟩
  rintro ⟨q, hobject, rfl, hopen⟩
  exact hsound.unclosed hobject hopen

/-- A queue with a subscriber and a message is deleted while its worker sends, and made
again under the same name. -/
def recreation : List BrokerEvent :=
  [.request (.queueCreation (lit "q")),
    .request (.subPolicyCreation (lit "q")
      (some (lit "\x7b\"SubName\":\"a\",\"SubURL\":\"u\",\"NumberOfRetries\":-1\x7d"))),
    .request (.enqueue (lit "q") (some (lit "body")) (lit "1")),
    .work 0 .pop, .work 0 .read,
    .request (.queueDeletion (lit "q")), .request (.queueCreation (lit "q")),
    .work 0 (.deliver .sorted fun _ => some 500), .work 0 .requeue]

theorem registry_of_recreation :
    ∃ b, exec Broker.step {} recreation = some b ∧
      b.panicked = none ∧
      (∀ name object, b.queues.lookup name = some object ↔
        ∃ q, b.objects[object]? = some q ∧ q.name = name ∧ q.isClosed = false) ∧
      b.numQueues = b.queues.len ∧ b.numQueues ≤ 128 ∧
      (∀ q ∈ b.objects, SubscribersOk q.subPolicies) ∧
      ∃ rings, runRings [] (trace Broker.step Broker.bufferOps {} recreation) =
          .ok (rings, trace Broker.step Broker.taken {} recreation) ∧
        HoldAll rings b.bufs := by
  obtain ⟨b, hexec⟩ : ∃ b, exec Broker.step {} recreation = some b :=
    Option.isSome_iff_exists.mp (by decide +kernel)
  exact ⟨b, hexec, registry_of_reachable hexec⟩

end SimonMQ.Push
