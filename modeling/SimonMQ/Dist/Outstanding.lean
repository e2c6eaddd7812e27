import SimonMQ.Dist.Fsm

namespace SimonMQ.Dist

open SimonMQ.Go

/-! Which messages the store holds, and how commands change that: a message that was
stored can only gain acks or go away. -/

namespace InMemoryStorage

variable {store next : InMemoryStorage} {queueName msgID : GoString}

def Holds (store : InMemoryStorage) (queueName msgID : GoString)
    (msg : MessageState) : Prop :=
  ∃ queue, store.queues.lookup queueName = some queue ∧
    queue.messages.lookup msgID = some msg

theorem holds_setQueue {name : GoString} {queue : QueueState} {msg : MessageState} :
    (store.setQueue name queue).Holds queueName msgID msg ↔
      (queueName = name ∧ queue.messages.lookup msgID = some msg) ∨
        (queueName ≠ name ∧ store.Holds queueName msgID msg) := by
  unfold Holds InMemoryStorage.setQueue
  by_cases hname : queueName = name
  · subst hname
    simp [Finmap.lookup_insert]
  · simp [hname]

theorem holds_setQueue_same {name : GoString} {old queue : QueueState}
    (hold : store.queues.lookup name = some old)
    (hmessages : queue.messages = old.messages) {msg : MessageState}
    (hholds : (store.setQueue name queue).Holds queueName msgID msg) :
    store.Holds queueName msgID msg := by
  rcases holds_setQueue.mp hholds with ⟨rfl, hlookup⟩ | ⟨_, hholds⟩
  · exact ⟨old, hold, hmessages ▸ hlookup⟩
  · exact hholds

theorem holds_of_enqueue {name newID payload : GoString} {subList : GoMap SubPolicy}
    {info : MessageInfo}
    (hnext : store.enqueue name newID payload subList = .ok (info, next))
    {msg : MessageState} (hholds : next.Holds queueName msgID msg) :
    store.Holds queueName msgID msg ∨
      (queueName = name ∧ msgID = newID ∧
        msg = store.newMessage newID payload subList ∧ 0 < subList.len) := by
  cases enqueued_of_enqueue hnext with
  | known => exact .inl hholds
  | unwanted => exact .inl hholds
  | @stored queue hqueue _ hpositive =>
      rcases holds_setQueue.mp hholds with ⟨rfl, hlookup⟩ | ⟨_, hholds⟩
      · rw [GoMap.lookup_insert_eq] at hlookup
        split_ifs at hlookup with hid
        · cases hlookup
          exact .inr ⟨rfl, hid, rfl, hpositive⟩
        · exact .inl ⟨queue, hqueue, hlookup⟩
      · exact .inl hholds

theorem info_of_enqueue {name newID payload : GoString} {subList : GoMap SubPolicy}
    {info : MessageInfo} (hfresh : ∀ msg, ¬ store.Holds name newID msg)
    (hnext : store.enqueue name newID payload subList = .ok (info, next)) :
    info = toMessageInfo (store.newMessage newID payload subList) := by
  cases enqueued_of_enqueue hnext with
  | known hqueue hexisting => exact absurd ⟨_, hqueue, hexisting⟩ (hfresh _)
  | stored => rfl
  | unwanted => rfl

theorem holds_of_ack {name ackedID : GoString} {subNames : List GoString}
    {msg : MessageState}
    (hholds : (store.ack name ackedID subNames).Holds queueName msgID msg) :
    (store.Holds queueName msgID msg ∧ (queueName = name → msgID ≠ ackedID)) ∨
      ∃ earlier, store.Holds queueName msgID earlier ∧ queueName = name ∧
        msgID = ackedID ∧ msg = earlier.markAcked subNames ∧
        msg.ackedSubs.card < msg.subList.len := by
  have hacked := acked_ack store name ackedID subNames
  generalize store.ack name ackedID subNames = next at hacked hholds
  cases hacked with
  | ignored hmissing =>
      refine .inl ⟨hholds, ?_⟩
      rintro rfl rfl
      obtain ⟨queue, hqueue, hlookup⟩ := hholds
      rw [hmissing queue hqueue] at hlookup
      contradiction
  | @completed queue _ hqueue =>
      rcases holds_setQueue.mp hholds with ⟨rfl, hlookup⟩ | ⟨hother, hholds⟩
      · rw [GoMap.lookup_erase_eq] at hlookup
        split_ifs at hlookup with hid
        exact .inl ⟨⟨queue, hqueue, hlookup⟩, fun _ => hid⟩
      · exact .inl ⟨hholds, fun hname => absurd hname hother⟩
  | @marked queue earlier hqueue hearlier howed =>
      rcases holds_setQueue.mp hholds with ⟨rfl, hlookup⟩ | ⟨hother, hholds⟩
      · rw [GoMap.lookup_insert_eq] at hlookup
        split_ifs at hlookup with hid
        · cases hlookup
          subst hid
          exact .inr ⟨earlier, ⟨queue, hqueue, hearlier⟩, rfl, rfl, rfl, by omega⟩
        · exact .inl ⟨⟨queue, hqueue, hlookup⟩, fun _ => hid⟩
      · exact .inl ⟨hholds, fun hname => absurd hname hother⟩

/-- The store of a cluster whose message ids are all in `used`: every message sits
under its own id in one queue and is still owed to somebody. -/
structure Outstanding (store : InMemoryStorage) (used : Finset GoString) : Prop where
  subs : ∀ queueName queue, store.queues.lookup queueName = some queue →
    KeyedByName queue.subs
  used : ∀ queueName msgID msg, store.Holds queueName msgID msg → msgID ∈ used
  msgID : ∀ queueName msgID msg, store.Holds queueName msgID msg → msg.msgID = msgID
  subList : ∀ queueName msgID msg, store.Holds queueName msgID msg →
    KeyedByName msg.subList
  owed : ∀ queueName msgID msg, store.Holds queueName msgID msg →
    msg.ackedSubs.card < msg.subList.len
  unique : ∀ queueName otherName msgID msg other, store.Holds queueName msgID msg →
    store.Holds otherName msgID other → queueName = otherName

/-- Every message of the later store with an id in use was in the earlier one, with the
same subscribers and no acks that were lost since. -/
def Retains (used : Finset GoString) (earlier later : InMemoryStorage) : Prop :=
  ∀ queueName msgID msg, later.Holds queueName msgID msg → msgID ∈ used →
    ∃ before, earlier.Holds queueName msgID before ∧ msg.subList = before.subList ∧
      before.ackedSubs ⊆ msg.ackedSubs

@[simp] theorem Retains.refl (used : Finset GoString) (store : InMemoryStorage) :
    store.Retains used store :=
  fun _ _ msg hmsg _ => ⟨msg, hmsg, rfl, Finset.Subset.refl _⟩

theorem retains_of_holds {used : Finset GoString}
    (hholds : ∀ queueName msgID msg, next.Holds queueName msgID msg →
      store.Holds queueName msgID msg) : store.Retains used next :=
  fun queueName msgID msg hmsg _ =>
    ⟨msg, hholds queueName msgID msg hmsg, rfl, Finset.Subset.refl _⟩

/-- No message comes in or is changed, and every queue keeps its name and its policies
under theirs. -/
structure Administers (store next : InMemoryStorage) : Prop where
  nextSeq : next.nextSeq = store.nextSeq
  holds : ∀ queueName msgID msg, next.Holds queueName msgID msg →
    store.Holds queueName msgID msg
  queues : ∀ name queue, next.queues.lookup name = some queue →
    (queue.name = name ∧ queue.subs = ∅) ∨
      ∃ old, store.queues.lookup name = some old ∧ queue.name = old.name ∧
        (KeyedByName old.subs → KeyedByName queue.subs)

theorem Administers.refl (store : InMemoryStorage) : store.Administers store where
  nextSeq := rfl
  holds := fun _ _ _ hholds => hholds
  queues := fun _ queue hqueue => .inr ⟨queue, hqueue, rfl, id⟩

theorem administers_setSubs {name : GoString} {queue : QueueState}
    (hqueue : store.queues.lookup name = some queue) {subs : GoMap SubPolicy}
    (hsubs : KeyedByName queue.subs → KeyedByName subs) :
    store.Administers (store.setQueue name { queue with subs }) where
  nextSeq := rfl
  holds := by
    intro queueName msgID msg hholds
    refine holds_setQueue_same hqueue ?_ hholds
    rfl
  queues := by
    intro other found hfound
    rw [setQueue, GoMap.lookup_insert_eq] at hfound
    split_ifs at hfound with hother
    · cases hfound
      exact .inr ⟨queue, hother ▸ hqueue, rfl, hsubs⟩
    · exact .inr ⟨found, hfound, rfl, id⟩

theorem administers_createQueue {name : GoString}
    (hnext : store.createQueue name = .ok next) : store.Administers next := by
  obtain ⟨_, rfl⟩ := createQueue_eq_ok hnext
  refine ⟨rfl, fun queueName msgID msg hholds => ?_, fun other found hfound => ?_⟩
  · rcases holds_setQueue.mp hholds with ⟨_, hlookup⟩ | ⟨_, hholds⟩
    · simp at hlookup
    · exact hholds
  · rw [setQueue, GoMap.lookup_insert_eq] at hfound
    split_ifs at hfound with hother
    · cases hfound
      exact .inl ⟨hother.symm, rfl⟩
    · exact .inr ⟨found, hfound, rfl, id⟩

theorem administers_deleteQueue {name : GoString}
    (hnext : store.deleteQueue name = .ok next) : store.Administers next := by
  obtain rfl := deleteQueue_eq_ok hnext
  have hkept : ∀ other queue, (store.queues.erase name).lookup other = some queue →
      store.queues.lookup other = some queue := by
    intro other queue hqueue
    rw [GoMap.lookup_erase_eq] at hqueue
    split_ifs at hqueue
    exact hqueue
  exact ⟨rfl, fun _ _ _ ⟨queue, hqueue, hlookup⟩ => ⟨queue, hkept _ _ hqueue, hlookup⟩,
    fun other queue hqueue => .inr ⟨queue, hkept _ _ hqueue, rfl, id⟩⟩

theorem administers_of_applied {cmd : Command} (happlied : FSM.Applied store cmd next)
    (hcmd : cmd.type ≠ .enqueue ∧ cmd.type ≠ .ack) : store.Administers next := by
  cases happlied with
  | refused => exact .refl store
  | createdQueue htype hnext => exact administers_createQueue hnext
  | deletedQueue htype hnext => exact administers_deleteQueue hnext
  | putPolicy htype hnext =>
      obtain ⟨queue, hqueue, rfl⟩ := putSubPolicy_eq_ok hnext
      exact administers_setSubs hqueue fun hkeyed => hkeyed.insert _
  | deletedPolicy htype hnext =>
      obtain ⟨queue, hqueue, rfl⟩ := deleteSubPolicy_eq_ok hnext
      exact administers_setSubs hqueue fun hkeyed => hkeyed.erase _
  | acked htype => exact absurd htype hcmd.2
  | enqueued htype hnext => exact absurd htype hcmd.1

theorem Outstanding.administered {used : Finset GoString} (hstore : store.Outstanding used)
    (hadministers : store.Administers next) :
    next.Outstanding used ∧ store.Retains used next := by
  have hholds := hadministers.holds
  refine ⟨?_, retains_of_holds hholds⟩
  exact {
    subs := by
      intro queueName queue hqueue
      rcases hadministers.queues queueName queue hqueue with
        ⟨-, hnone⟩ | ⟨old, hold, -, hkeyed⟩
      · rw [hnone]
        exact keyedByName_empty
      · exact hkeyed (hstore.subs queueName old hold)
    used := fun _ _ _ hmsg => hstore.used _ _ _ (hholds _ _ _ hmsg)
    msgID := fun _ _ _ hmsg => hstore.msgID _ _ _ (hholds _ _ _ hmsg)
    subList := fun _ _ _ hmsg => hstore.subList _ _ _ (hholds _ _ _ hmsg)
    owed := fun _ _ _ hmsg => hstore.owed _ _ _ (hholds _ _ _ hmsg)
    unique := fun _ _ _ _ _ hmsg hother =>
      hstore.unique _ _ _ _ _ (hholds _ _ _ hmsg) (hholds _ _ _ hother) }

theorem Outstanding.mono {used later : Finset GoString}
    (hstore : store.Outstanding used) (hused : used ⊆ later) :
    store.Outstanding later :=
  { hstore with
    used := fun _ _ _ hholds => hused (hstore.used _ _ _ hholds) }

theorem keyed_setQueue {used : Finset GoString} (hstore : store.Outstanding used)
    {name : GoString} {queue : QueueState} (hqueue : KeyedByName queue.subs) :
    ∀ queueName found,
      (store.setQueue name queue).queues.lookup queueName = some found →
        KeyedByName found.subs := by
  intro queueName found hfound
  rw [InMemoryStorage.setQueue, GoMap.lookup_insert_eq] at hfound
  split_ifs at hfound
  · cases hfound
    exact hqueue
  · exact hstore.subs queueName found hfound

theorem retains_of_enqueue {used : Finset GoString} {name newID payload : GoString}
    {subList : GoMap SubPolicy} {info : MessageInfo} (hfresh : newID ∉ used)
    (hnext : store.enqueue name newID payload subList = .ok (info, next)) :
    store.Retains used next := by
  intro queueName msgID msg hholds hused
  rcases holds_of_enqueue hnext hholds with hheld | ⟨_, rfl, _, _⟩
  · exact ⟨msg, hheld, rfl, Finset.Subset.refl _⟩
  · contradiction

theorem Outstanding.enqueue {used : Finset GoString} (hstore : store.Outstanding used)
    {name newID payload : GoString} {subList : GoMap SubPolicy} {info : MessageInfo}
    (hfresh : newID ∉ used) (hkeyed : KeyedByName subList)
    (hnext : store.enqueue name newID payload subList = .ok (info, next)) :
    next.Outstanding (insert newID used) where
  subs := by
    cases enqueued_of_enqueue hnext with
    | known => exact hstore.subs
    | unwanted => exact hstore.subs
    | @stored queue hqueue =>
        have hcounted : ({ store with nextSeq := store.nextSeq + 1 } :
            InMemoryStorage).Outstanding used := { hstore with }
        exact keyed_setQueue hcounted (hstore.subs name queue hqueue)
  used := by
    intro queueName msgID msg hholds
    rcases holds_of_enqueue hnext hholds with hheld | ⟨_, rfl, _, _⟩
    · exact Finset.mem_insert_of_mem (hstore.used _ _ _ hheld)
    · exact Finset.mem_insert_self _ _
  msgID := by
    intro queueName msgID msg hholds
    rcases holds_of_enqueue hnext hholds with hheld | ⟨_, rfl, rfl, _⟩
    · exact hstore.msgID _ _ _ hheld
    · rfl
  subList := by
    intro queueName msgID msg hholds
    rcases holds_of_enqueue hnext hholds with hheld | ⟨_, rfl, rfl, _⟩
    · exact hstore.subList _ _ _ hheld
    · exact hkeyed
  owed := by
    intro queueName msgID msg hholds
    rcases holds_of_enqueue hnext hholds with hheld | ⟨_, rfl, rfl, hpositive⟩
    · exact hstore.owed _ _ _ hheld
    · simpa [newMessage] using hpositive
  unique := by
    intro queueName otherName msgID msg other hmsg hother
    rcases holds_of_enqueue hnext hmsg with hheld | ⟨rfl, rfl, _, _⟩
    · rcases holds_of_enqueue hnext hother with hotherHeld | ⟨rfl, rfl, _, _⟩
      · exact hstore.unique _ _ _ _ _ hheld hotherHeld
      · exact absurd (hstore.used _ _ _ hheld) hfresh
    · rcases holds_of_enqueue hnext hother with hotherHeld | ⟨rfl, _, _, _⟩
      · exact absurd (hstore.used _ _ _ hotherHeld) hfresh
      · rfl

theorem retains_of_ack {used : Finset GoString} (name ackedID : GoString)
    (subNames : List GoString) :
    store.Retains used (store.ack name ackedID subNames) := by
  intro queueName msgID msg hholds _
  rcases holds_of_ack hholds with ⟨hheld, _⟩ | ⟨earlier, hheld, _, _, rfl, _⟩
  · exact ⟨msg, hheld, rfl, Finset.Subset.refl _⟩
  · exact ⟨earlier, hheld, rfl, Finset.subset_union_left⟩

theorem Outstanding.ack {used : Finset GoString} (hstore : store.Outstanding used)
    (name ackedID : GoString) (subNames : List GoString) :
    (store.ack name ackedID subNames).Outstanding used where
  subs := by
    have hacked := acked_ack store name ackedID subNames
    generalize store.ack name ackedID subNames = next at hacked ⊢
    cases hacked with
    | ignored => exact hstore.subs
    | completed hqueue | marked hqueue =>
        have hkeyed := hstore.subs name _ hqueue
        exact keyed_setQueue hstore hkeyed
  used := by
    intro queueName msgID msg hholds
    rcases holds_of_ack hholds with ⟨hheld, _⟩ | ⟨earlier, hheld, _⟩
    · exact hstore.used _ _ _ hheld
    · exact hstore.used _ _ _ hheld
  msgID := by
    intro queueName msgID msg hholds
    rcases holds_of_ack hholds with ⟨hheld, _⟩ | ⟨earlier, hheld, _, _, rfl, _⟩
    · exact hstore.msgID _ _ _ hheld
    · exact hstore.msgID _ _ earlier hheld
  subList := by
    intro queueName msgID msg hholds
    rcases holds_of_ack hholds with ⟨hheld, _⟩ | ⟨earlier, hheld, _, _, rfl, _⟩
    · exact hstore.subList _ _ _ hheld
    · exact hstore.subList _ _ earlier hheld
  owed := by
    intro queueName msgID msg hholds
    rcases holds_of_ack hholds with ⟨hheld, _⟩ | ⟨earlier, hheld, _, _, _, howed⟩
    · exact hstore.owed _ _ _ hheld
    · exact howed
  unique := by
    have hheld : ∀ queueName msgID msg,
        (store.ack name ackedID subNames).Holds queueName msgID msg →
          ∃ earlier, store.Holds queueName msgID earlier := by
      intro queueName msgID msg hholds
      rcases holds_of_ack hholds with ⟨hheld, _⟩ | ⟨earlier, hheld, _⟩
      · exact ⟨msg, hheld⟩
      · exact ⟨earlier, hheld⟩
    intro queueName otherName msgID msg other hmsg hother
    obtain ⟨earlier, hearlier⟩ := hheld _ _ _ hmsg
    obtain ⟨otherEarlier, hotherEarlier⟩ := hheld _ _ _ hother
    exact hstore.unique _ _ _ _ _ hearlier hotherEarlier

theorem outstanding_empty : empty.Outstanding ∅ := by
  have hnone : ∀ queueName msgID msg, ¬ empty.Holds queueName msgID msg := by
    rintro queueName msgID msg ⟨queue, hqueue, _⟩
    simp [empty] at hqueue
  constructor
  · intro queueName queue hqueue
    simp [empty] at hqueue
  all_goals
    intros
    exact (hnone _ _ _ ‹_›).elim

end InMemoryStorage

def Command.isAdministrative (cmd : Command) : Bool :=
  cmd.type = .createQueue ∨ cmd.type = .deleteQueue ∨ cmd.type = .putSubPolicy ∨
    cmd.type = .deleteSubPolicy

theorem FSM.outstanding_applyCommand {store : InMemoryStorage} {used : Finset GoString}
    (hstore : store.Outstanding used) {cmd : Command}
    (hcmd : cmd.isAdministrative = true) (index : UInt64) :
    (FSM.applyCommand index store cmd).2.Outstanding used ∧
      store.Retains used (FSM.applyCommand index store cmd).2 := by
  refine hstore.administered (InMemoryStorage.administers_of_applied
    (applied_applyCommand index store cmd) ?_)
  constructor <;>
  · intro htype
    simp [Command.isAdministrative, htype] at hcmd

end SimonMQ.Dist
