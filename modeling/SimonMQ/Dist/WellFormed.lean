import SimonMQ.Dist.Outstanding
import SimonMQ.Dist.Snapshot

namespace SimonMQ.Dist

open SimonMQ.Go

/-! What holds of every store that entries and restored snapshots lead to. -/

structure MessageState.WellFormed (msg : MessageState) (msgID : GoString) : Prop where
  msgID : msg.msgID = msgID
  subList : 0 < msg.subList.len
  ackedSubs : msg.ackedSubs ⊂ msg.subList.keys

structure QueueState.WellFormed (queue : QueueState) (name : GoString) : Prop where
  name : queue.name = name
  subs : KeyedByName queue.subs

structure InMemoryStorage.WellFormed (store : InMemoryStorage) : Prop where
  queues : ∀ name queue, store.queues.lookup name = some queue → queue.WellFormed name
  messages : ∀ queueName msgID msg, store.Holds queueName msgID msg → msg.WellFormed msgID
  below : ∀ queueName msgID msg, store.Holds queueName msgID msg → msg.seq < store.nextSeq
  distinct : ∀ queueName msgID msg otherName otherID other,
    store.Holds queueName msgID msg → store.Holds otherName otherID other →
      msg.seq = other.seq → queueName = otherName ∧ msgID = otherID

theorem MessageState.WellFormed.markAcked {msg : MessageState} {msgID : GoString}
    (hmsg : msg.WellFormed msgID) {subNames : List GoString}
    (howed : (msg.markAcked subNames).ackedSubs.card <
      (msg.markAcked subNames).subList.len) :
    (msg.markAcked subNames).WellFormed msgID where
  msgID := hmsg.msgID
  subList := hmsg.subList
  ackedSubs := by
    have hnames : (subNames.filter fun name => name ∈ msg.subList.keys).toFinset ⊆
        msg.subList.keys := by
      intro name hmem
      simpa using (List.mem_filter.mp (List.mem_toFinset.mp hmem)).2
    have hwithin : (msg.markAcked subNames).ackedSubs ⊆ msg.subList.keys :=
      Finset.union_subset hmsg.ackedSubs.1 hnames
    refine Finset.ssubset_iff_subset_ne.mpr ⟨hwithin, fun hall => ?_⟩
    rw [hall] at howed
    exact Nat.lt_irrefl _ howed

namespace InMemoryStorage

variable {store next : InMemoryStorage}

theorem wellFormed_empty : empty.WellFormed := by
  have hnone : ∀ queueName msgID msg, ¬ empty.Holds queueName msgID msg := by
    rintro queueName msgID msg ⟨queue, hqueue, _⟩
    simp [empty] at hqueue
  exact {
    queues := fun name queue hqueue => by simp [empty] at hqueue
    messages := fun _ _ _ hholds => absurd hholds (hnone _ _ _)
    below := fun _ _ _ hholds => absurd hholds (hnone _ _ _)
    distinct := fun _ _ _ _ _ _ hholds => absurd hholds (hnone _ _ _) }

theorem WellFormed.of_holds (hstore : store.WellFormed) (hseq : next.nextSeq = store.nextSeq)
    (hqueues : ∀ name queue, next.queues.lookup name = some queue → queue.WellFormed name)
    (hholds : ∀ queueName msgID msg, next.Holds queueName msgID msg →
      ∃ before, store.Holds queueName msgID before ∧ msg.seq = before.seq ∧
        msg.WellFormed msgID) :
    next.WellFormed where
  queues := hqueues
  messages := by
    intro queueName msgID msg hmsg
    obtain ⟨_, _, _, hwell⟩ := hholds queueName msgID msg hmsg
    exact hwell
  below := by
    intro queueName msgID msg hmsg
    obtain ⟨before, hbefore, hsame, _⟩ := hholds queueName msgID msg hmsg
    rw [hsame, hseq]
    exact hstore.below queueName msgID before hbefore
  distinct := by
    intro queueName msgID msg otherName otherID other hmsg hother heq
    obtain ⟨before, hbefore, hsame, _⟩ := hholds queueName msgID msg hmsg
    obtain ⟨earlier, hearlier, halike, _⟩ := hholds otherName otherID other hother
    exact hstore.distinct _ _ _ _ _ _ hbefore hearlier
      (hsame.symm.trans (heq.trans halike))

theorem WellFormed.queues_setQueue (hstore : store.WellFormed) {name : GoString}
    {queue : QueueState} (hqueue : queue.WellFormed name) :
    ∀ other found, (store.setQueue name queue).queues.lookup other = some found →
      found.WellFormed other := by
  intro other found hfound
  rw [setQueue, GoMap.lookup_insert_eq] at hfound
  split_ifs at hfound with hother
  · cases hfound
    rw [hother]
    exact hqueue
  · exact hstore.queues other found hfound

theorem WellFormed.administered (hstore : store.WellFormed)
    (hadministers : store.Administers next) : next.WellFormed := by
  refine hstore.of_holds hadministers.nextSeq (fun name queue hqueue => ?_)
    fun queueName msgID msg hmsg => ?_
  · rcases hadministers.queues name queue hqueue with
      ⟨hname, hnone⟩ | ⟨old, hold, hname, hkeyed⟩
    · exact ⟨hname, hnone ▸ keyedByName_empty⟩
    · have hwell := hstore.queues name old hold
      exact ⟨hname.trans hwell.name, hkeyed hwell.subs⟩
  · have hbefore := hadministers.holds queueName msgID msg hmsg
    exact ⟨msg, hbefore, rfl, hstore.messages queueName msgID msg hbefore⟩

theorem nextSeq_ack (store : InMemoryStorage) (queueName msgID : GoString)
    (subNames : List GoString) :
    (store.ack queueName msgID subNames).nextSeq = store.nextSeq := by
  have hacked := acked_ack store queueName msgID subNames
  generalize store.ack queueName msgID subNames = next at hacked ⊢
  cases hacked with
  | ignored | completed | marked => rfl

theorem WellFormed.ack (hstore : store.WellFormed) (queueName msgID : GoString)
    (subNames : List GoString) : (store.ack queueName msgID subNames).WellFormed := by
  have hacked := acked_ack store queueName msgID subNames
  refine hstore.of_holds (nextSeq_ack store queueName msgID subNames) ?_ ?_
  · generalize store.ack queueName msgID subNames = next at hacked ⊢
    cases hacked with
    | ignored => exact hstore.queues
    | completed hqueue | marked hqueue =>
        have hwell := hstore.queues queueName _ hqueue
        exact hstore.queues_setQueue ⟨hwell.name, hwell.subs⟩
  · intro otherName otherID msg hmsg
    rcases holds_of_ack hmsg with ⟨hbefore, _⟩ | ⟨before, hbefore, _, _, rfl, howed⟩
    · exact ⟨msg, hbefore, rfl, hstore.messages _ _ _ hbefore⟩
    · exact ⟨before, hbefore, rfl, (hstore.messages _ _ _ hbefore).markAcked howed⟩

theorem rest_of_enqueue {queueName msgID payload : GoString} {subList : GoMap SubPolicy}
    {info : MessageInfo} (hstore : store.WellFormed)
    (hnext : store.enqueue queueName msgID payload subList = .ok (info, next)) :
    next = store ∨ (next.nextSeq = store.nextSeq + 1 ∧
      ∀ name queue, next.queues.lookup name = some queue → queue.WellFormed name) := by
  cases enqueued_of_enqueue hnext with
  | known => exact .inl rfl
  | unwanted => exact .inr ⟨rfl, hstore.queues⟩
  | @stored queue hqueue =>
      have hwell := hstore.queues queueName queue hqueue
      exact .inr ⟨rfl, hstore.queues_setQueue ⟨hwell.name, hwell.subs⟩⟩

theorem wellFormed_newMessage (store : InMemoryStorage) (msgID payload : GoString)
    {subList : GoMap SubPolicy} (hsubs : 0 < subList.len) :
    (store.newMessage msgID payload subList).WellFormed msgID where
  msgID := rfl
  subList := hsubs
  ackedSubs := Finset.empty_ssubset.mpr (Finset.card_pos.mp hsubs)

theorem WellFormed.enqueue (hstore : store.WellFormed)
    (hroom : store.nextSeq.toNat + 1 < 2 ^ 64) {queueName msgID payload : GoString}
    {subList : GoMap SubPolicy} {info : MessageInfo}
    (hnext : store.enqueue queueName msgID payload subList = .ok (info, next)) :
    next.WellFormed := by
  rcases rest_of_enqueue hstore hnext with rfl | ⟨hseq, hqueues⟩
  · exact hstore
  have hnumber : next.nextSeq.toNat = store.nextSeq.toNat + 1 := by
    rw [hseq, UInt64.toNat_add, UInt64.toNat_one, Nat.mod_eq_of_lt hroom]
  constructor
  case queues => exact hqueues
  case messages =>
    intro otherName otherID msg hmsg
    rcases holds_of_enqueue hnext hmsg with hbefore | ⟨_, rfl, rfl, hsubs⟩
    · exact hstore.messages otherName otherID msg hbefore
    · exact wellFormed_newMessage store _ _ hsubs
  case below =>
    intro otherName otherID msg hmsg
    rw [UInt64.lt_iff_toNat_lt, hnumber]
    rcases holds_of_enqueue hnext hmsg with hbefore | ⟨_, _, rfl, _⟩
    · have hlt := UInt64.lt_iff_toNat_lt.mp (hstore.below otherName otherID msg hbefore)
      omega
    · exact Nat.lt_succ_self _
  case distinct =>
    intro leftName leftID left rightName rightID right hleft hright hsame
    rcases holds_of_enqueue hnext hleft with hleft | ⟨rfl, rfl, rfl, _⟩ <;>
      rcases holds_of_enqueue hnext hright with hright | ⟨rfl, rfl, rfl, _⟩
    · exact hstore.distinct _ _ _ _ _ _ hleft hright hsame
    · have hlt := hstore.below _ _ _ hleft
      rw [hsame] at hlt
      exact absurd hlt (UInt64.lt_irrefl _)
    · have hlt := hstore.below _ _ _ hright
      rw [← hsame] at hlt
      exact absurd hlt (UInt64.lt_irrefl _)
    · exact ⟨rfl, rfl⟩

end InMemoryStorage

def LogEntry.enqueues (entry : LogEntry) : Nat :=
  match Command.decode entry.data with
  | .ok cmd => if cmd.type = .enqueue then 1 else 0
  | .error _ => 0

/-- The stores that entries and snapshots lead to, with the number of enqueues on the
way.  The way to a restored store is the one to the store that the snapshot is of. -/
inductive InMemoryStorage.Reached : Nat → InMemoryStorage → Prop
  | empty : Reached 0 .empty
  | apply {count : Nat} {store : InMemoryStorage} (hstore : Reached count store)
      (entry : LogEntry) : Reached (count + entry.enqueues) (FSM.apply store entry).2
  | restore {other count : Nat} {receiver source : InMemoryStorage}
      (hreceiver : Reached other receiver) (hsource : Reached count source) :
      Reached count (FSM.restore receiver (FSM.snapshot source)).2

namespace FSM

theorem wellFormed_applyCommand {store : InMemoryStorage} (hstore : store.WellFormed)
    {cmd : Command} (hroom : cmd.type = .enqueue → store.nextSeq.toNat + 1 < 2 ^ 64)
    (index : UInt64) :
    (applyCommand index store cmd).2.WellFormed ∧
      (applyCommand index store cmd).2.nextSeq.toNat ≤
        store.nextSeq.toNat + if cmd.type = .enqueue then 1 else 0 := by
  have happlied := applied_applyCommand index store cmd
  generalize (applyCommand index store cmd).2 = next at happlied ⊢
  by_cases hcmd : cmd.type ≠ .enqueue ∧ cmd.type ≠ .ack
  · have hadministers := InMemoryStorage.administers_of_applied happlied hcmd
    exact ⟨hstore.administered hadministers, by rw [hadministers.nextSeq]; omega⟩
  · cases happlied with
    | refused => exact ⟨hstore, by omega⟩
    | acked htype =>
        refine ⟨hstore.ack _ _ _, ?_⟩
        rw [InMemoryStorage.nextSeq_ack]
        omega
    | enqueued htype hnext =>
        refine ⟨hstore.enqueue (hroom htype) hnext, ?_⟩
        rw [if_pos htype]
        rcases InMemoryStorage.rest_of_enqueue hstore hnext with rfl | ⟨hseq, _⟩
        · omega
        · rw [hseq, UInt64.toNat_add]
          exact Nat.mod_le _ _
    | createdQueue htype | deletedQueue htype | putPolicy htype | deletedPolicy htype =>
        simp [htype] at hcmd

theorem wellFormed_apply {store : InMemoryStorage} (hstore : store.WellFormed)
    (entry : LogEntry) (hroom : store.nextSeq.toNat + entry.enqueues < 2 ^ 64) :
    (apply store entry).2.WellFormed ∧
      (apply store entry).2.nextSeq.toNat ≤ store.nextSeq.toNat + entry.enqueues := by
  unfold apply
  rw [LogEntry.enqueues] at hroom ⊢
  cases hdecode : Command.decode entry.data with
  | error err => exact ⟨hstore, Nat.le_refl _⟩
  | ok cmd =>
      rw [hdecode] at hroom
      refine wellFormed_applyCommand hstore (fun htype => ?_) entry.index
      simpa [htype] using hroom

end FSM

namespace InMemoryStorage.Reached

variable {count : Nat} {store : InMemoryStorage}

theorem storable (hreached : Reached count store) : store.Storable := by
  induction hreached with
  | empty => exact storable_empty
  | apply hstore entry ih => exact FSM.storable_apply _ entry ih
  | restore hreceiver hsource _ ih =>
      rw [FSM.restore, FSM.snapshot, restore_snapshot ih]
      exact ih

theorem wellFormed_and_nextSeq (hreached : Reached count store) (hcount : count < 2 ^ 64) :
    store.WellFormed ∧ store.nextSeq.toNat ≤ count := by
  induction hreached with
  | empty => exact ⟨wellFormed_empty, Nat.le_refl _⟩
  | apply hstore entry ih =>
      obtain ⟨hwell, hseq⟩ := ih (by omega)
      obtain ⟨hnext, hle⟩ := FSM.wellFormed_apply hwell entry (by omega)
      exact ⟨hnext, by omega⟩
  | restore hreceiver hsource _ ih =>
      rw [FSM.restore, FSM.snapshot, restore_snapshot hsource.storable]
      exact ih hcount

end InMemoryStorage.Reached

theorem reached_store_is_wellFormed {count : Nat} {store : InMemoryStorage}
    (hreached : InMemoryStorage.Reached count store) (hcount : count < 2 ^ 64) :
    store.WellFormed :=
  (hreached.wellFormed_and_nextSeq hcount).1

/-- A message for two subscribers, acked by one of them and by a stranger. -/
def busyEntries : List LogEntry :=
  let policy (name : GoString) : SubPolicy := { SubPolicy.zero with subName := name }
  let subList := ((∅ : GoMap SubPolicy).insert (lit "a") (policy (lit "a"))).insert
    (lit "b") (policy (lit "b"))
  [⟨1, (Command.newCreateQueue (lit "q")).encode.toOption.getD []⟩,
    ⟨2, (Command.newEnqueue (lit "q") (lit "m") (lit "hi") subList).encode.toOption.getD []⟩,
    ⟨3, (Command.newAck (lit "q") (lit "m") [lit "a", lit "c"]).encode.toOption.getD []⟩]

/-- A node that starts from a snapshot of an empty one. -/
def busyStore : InMemoryStorage :=
  (FSM.run (FSM.restore .empty (FSM.snapshot .empty)).2 busyEntries).2

theorem busy_store_is_wellFormed :
    ((busyStore.queues.lookup (lit "q")).bind fun queue =>
        (queue.messages.lookup (lit "m")).map MessageState.ackedSubs) = some {lit "a"} ∧
      busyStore.WellFormed := by
  refine ⟨by decide +kernel, ?_⟩
  exact reached_store_is_wellFormed
    (.apply (.apply (.apply (.restore .empty .empty) _) _) _) (by decide +kernel)

end SimonMQ.Dist
