import SimonMQ.Dist.Fsm

namespace SimonMQ.Dist

open SimonMQ.Go
open SimonMQ.Go.Json
open SimonMQ.Go.Utf8

/-! Snapshots of the replicated state.  A snapshot is the JSON form of the store
with queues in name order and messages in sequence order. -/

structure SnapshotMessage where
  seq : UInt64
  msgID : GoString
  payload : GoString
  subList : GoMap SubPolicy
  ackedSubs : List GoString

structure SnapshotQueue where
  name : GoString
  subs : GoMap SubPolicy
  messages : List SnapshotMessage

structure SnapshotState where
  nextSeq : UInt64
  queues : List SnapshotQueue

namespace SnapshotMessage

def zero : SnapshotMessage where
  seq := 0
  msgID := []
  payload := []
  subList := ∅
  ackedSubs := []

def fields : List (StructField SnapshotMessage) :=
  [ .uint64 (lit "Seq") seq fun msg seq => { msg with seq },
    .string (lit "MsgId") msgID fun msg msgID => { msg with msgID },
    .string (lit "Payload") payload fun msg payload => { msg with payload },
    .map (lit "SubList") SubPolicy.fields .zero subList
      fun msg subList => { msg with subList },
    .strings (lit "AckedSubs") ackedSubs fun msg ackedSubs => { msg with ackedSubs } ]

def coerce (msg : SnapshotMessage) : SnapshotMessage :=
  { msg with
    msgID := toValid msg.msgID
    payload := toValid msg.payload
    subList := coerceMap SubPolicy.coerce msg.subList
    ackedSubs := msg.ackedSubs.map toValid }

theorem intoStruct_coerce (msg : SnapshotMessage) :
    intoStruct fields (structValue fields msg).coerce zero = some msg.coerce := by
  have hnames : WellNamed fields := by decide +kernel
  rw [Json.intoStruct_coerce hnames]
  have hsubs := intoMap_coerce SubPolicy.intoStruct_coerce msg.subList
  have hacked := intoSlice_coerce [] (fun text => intoString_coerce text [])
    msg.ackedSubs []
  simp [fields, StructField.uint64, StructField.string, StructField.map, StructField.mapOf,
    StructField.strings, coerce, zero, hsubs, hacked]

end SnapshotMessage

namespace SnapshotQueue

def zero : SnapshotQueue where
  name := []
  subs := ∅
  messages := []

def fields : List (StructField SnapshotQueue) :=
  [ .string (lit "Name") name fun queue name => { queue with name },
    .map (lit "Subs") SubPolicy.fields .zero subs fun queue subs => { queue with subs },
    .structs (lit "Messages") SnapshotMessage.fields .zero messages
      fun queue messages => { queue with messages } ]

def coerce (queue : SnapshotQueue) : SnapshotQueue where
  name := toValid queue.name
  subs := coerceMap SubPolicy.coerce queue.subs
  messages := queue.messages.map SnapshotMessage.coerce

theorem intoStruct_coerce (queue : SnapshotQueue) :
    intoStruct fields (structValue fields queue).coerce zero = some queue.coerce := by
  have hnames : WellNamed fields := by decide +kernel
  rw [Json.intoStruct_coerce hnames]
  have hsubs := intoMap_coerce SubPolicy.intoStruct_coerce queue.subs
  have hmessages := intoSlice_coerce .zero SnapshotMessage.intoStruct_coerce queue.messages []
  simp [fields, StructField.string, StructField.map, StructField.mapOf, StructField.structs, coerce,
    zero, hsubs, hmessages]

end SnapshotQueue

namespace SnapshotState

def zero : SnapshotState where
  nextSeq := 0
  queues := []

def fields : List (StructField SnapshotState) :=
  [ .uint64 (lit "NextSeq") nextSeq fun state nextSeq => { state with nextSeq },
    .structs (lit "Queues") SnapshotQueue.fields .zero queues
      fun state queues => { state with queues } ]

def coerce (state : SnapshotState) : SnapshotState :=
  { state with queues := state.queues.map SnapshotQueue.coerce }

theorem unmarshal_marshal (state : SnapshotState) :
    unmarshal fields zero (marshal fields state) = some state.coerce := by
  have hnames : WellNamed fields := by decide +kernel
  rw [Json.unmarshal_marshal (by decide), Json.intoStruct_coerce hnames]
  have hqueues := intoSlice_coerce .zero SnapshotQueue.intoStruct_coerce state.queues []
  simp [fields, StructField.uint64, StructField.structs, coerce, zero, hqueues]

end SnapshotState

def snapshotMessage (msg : MessageState) : SnapshotMessage where
  seq := msg.seq
  msgID := msg.msgID
  payload := msg.payload
  subList := msg.subList
  ackedSubs := sortedNames msg.ackedSubs

def snapshotQueue (queue : QueueState) : SnapshotQueue where
  name := queue.name
  subs := queue.subs
  messages := queue.inOrder.map snapshotMessage

def InMemoryStorage.queuesInOrder (store : InMemoryStorage) : List QueueState :=
  ((sortedEntries store.queues).map Prod.snd).insertionSort
    fun left right => left.name ≤ right.name

def snapshotState (store : InMemoryStorage) : SnapshotState where
  nextSeq := store.nextSeq
  queues := store.queuesInOrder.map snapshotQueue

def InMemoryStorage.snapshot (store : InMemoryStorage) : Bytes :=
  marshal SnapshotState.fields (snapshotState store)

def restoreMessage (msg : SnapshotMessage) : MessageState where
  seq := msg.seq
  msgID := msg.msgID
  payload := msg.payload
  subList := msg.subList
  ackedSubs := msg.ackedSubs.toFinset

def restoreQueue (queue : SnapshotQueue) : QueueState where
  name := queue.name
  subs := queue.subs
  messages := GoMap.ofList
    (queue.messages.map fun msg => (msg.msgID, restoreMessage msg))

def restoreState (state : SnapshotState) : InMemoryStorage where
  queues := GoMap.ofList
    (state.queues.map fun queue => (queue.name, restoreQueue queue))
  nextSeq := state.nextSeq

inductive RestoreError
  | decodeSnapshot
  deriving DecidableEq, Repr

/-- `InMemoryStorage.Restore`: a payload that does not decode leaves the store
as it was, any other replaces it wholesale. -/
def InMemoryStorage.restore (store : InMemoryStorage) (data : Bytes) :
    Except RestoreError Unit × InMemoryStorage :=
  match unmarshal SnapshotState.fields SnapshotState.zero data with
  | none => (.error .decodeSnapshot, store)
  | some state => (.ok (), restoreState state)

/-- `FSM.Snapshot` and `Persist`: the bytes that reach the snapshot sink. -/
def FSM.snapshot (store : InMemoryStorage) : Bytes := store.snapshot

def FSM.restore (store : InMemoryStorage) (data : Bytes) :
    Except RestoreError Unit × InMemoryStorage :=
  store.restore data

/-! A store that a snapshot can carry: every value sits under its own name and
every string is valid UTF-8, so JSON changes none of them. -/

def ValidSubs (subs : GoMap SubPolicy) : Prop :=
  ∀ name policy, subs.lookup name = some policy → Utf8.Valid name ∧ policy.Valid

structure MessageState.Storable (msg : MessageState) : Prop where
  msgID : Utf8.Valid msg.msgID
  payload : Utf8.Valid msg.payload
  subList : ValidSubs msg.subList
  ackedSubs : ∀ name ∈ msg.ackedSubs, Utf8.Valid name

structure QueueState.Storable (queue : QueueState) : Prop where
  name : Utf8.Valid queue.name
  subs : ValidSubs queue.subs
  messages : ∀ msgID msg, queue.messages.lookup msgID = some msg →
    msg.msgID = msgID ∧ msg.Storable

structure InMemoryStorage.Storable (store : InMemoryStorage) : Prop where
  queues : ∀ name queue, store.queues.lookup name = some queue →
    queue.name = name ∧ queue.Storable

theorem coerceMap_of_validSubs {subs : GoMap SubPolicy} (hsubs : ValidSubs subs) :
    coerceMap SubPolicy.coerce subs = subs := by
  apply coerceMap_of_valid
  intro name policy hlookup
  obtain ⟨hname, hpolicy⟩ := hsubs name policy hlookup
  exact ⟨hname, SubPolicy.coerce_of_valid hpolicy⟩

theorem ValidSubs.insert {subs : GoMap SubPolicy} (hsubs : ValidSubs subs)
    {name : GoString} {policy : SubPolicy} (hname : Utf8.Valid name)
    (hpolicy : policy.Valid) : ValidSubs (subs.insert name policy) := by
  intro other found hlookup
  rw [GoMap.lookup_insert_eq] at hlookup
  split_ifs at hlookup with hother
  · cases hlookup
    subst hother
    exact ⟨hname, hpolicy⟩
  · exact hsubs other found hlookup

theorem ValidSubs.erase {subs : GoMap SubPolicy} (hsubs : ValidSubs subs)
    (name : GoString) : ValidSubs (subs.erase name) := by
  intro other found hlookup
  rw [GoMap.lookup_erase_eq] at hlookup
  split_ifs at hlookup
  exact hsubs other found hlookup

theorem validSubs_empty : ValidSubs ∅ := by
  intro name policy hlookup
  simp at hlookup

@[simp] theorem toFinset_sortedNames (names : Finset GoString) :
    (sortedNames names).toFinset = names := by
  ext name
  simp [sortedNames]

theorem restoreMessage_coerce {msg : MessageState} (hmsg : msg.Storable) :
    restoreMessage (snapshotMessage msg).coerce = msg := by
  have hacked : (sortedNames msg.ackedSubs).map toValid = sortedNames msg.ackedSubs := by
    conv_rhs => rw [← List.map_id (sortedNames msg.ackedSubs)]
    apply List.map_congr_left
    intro name hmem
    exact flatten_runes_of_valid (hmsg.ackedSubs name (by simpa [sortedNames] using hmem))
  simp only [restoreMessage, snapshotMessage, SnapshotMessage.coerce,
    flatten_runes_of_valid hmsg.msgID, flatten_runes_of_valid hmsg.payload,
    coerceMap_of_validSubs hmsg.subList, hacked, toFinset_sortedNames]

theorem restoreQueue_coerce {queue : QueueState} (hqueue : queue.Storable) :
    restoreQueue (snapshotQueue queue).coerce = queue := by
  have henum := enumerates_sorted_values queue.messages MessageState.msgID
    (fun msgID msg hlookup => (hqueue.messages msgID msg hlookup).1)
    fun left right => left.seq ≤ right.seq
  have hrestored :
      (((queue.inOrder.map snapshotMessage).map SnapshotMessage.coerce).map
        fun msg => (msg.msgID, restoreMessage msg)) =
      queue.inOrder.map fun msg => (msg.msgID, msg) := by
    rw [List.map_map, List.map_map]
    apply List.map_congr_left
    intro msg hmem
    have hlookup := henum.lookup_of_mem (List.mem_map_of_mem hmem)
    have hmsg := (hqueue.messages _ _ hlookup).2
    have hid := congrArg MessageState.msgID (restoreMessage_coerce hmsg)
    simp only [Function.comp_apply, restoreMessage_coerce hmsg, Prod.mk.injEq, and_true]
    exact hid
  simp only [restoreQueue, snapshotQueue, SnapshotQueue.coerce,
    flatten_runes_of_valid hqueue.name, coerceMap_of_validSubs hqueue.subs,
    hrestored]
  rw [QueueState.inOrder, GoMap.ofList_of_enumerates henum]

theorem restoreState_coerce {store : InMemoryStorage} (hstore : store.Storable) :
    restoreState (snapshotState store).coerce = store := by
  have henum := enumerates_sorted_values store.queues QueueState.name
    (fun name queue hlookup => (hstore.queues name queue hlookup).1)
    fun left right => left.name ≤ right.name
  have hrestored :
      (((store.queuesInOrder.map snapshotQueue).map SnapshotQueue.coerce).map
        fun queue => (queue.name, restoreQueue queue)) =
      store.queuesInOrder.map fun queue => (queue.name, queue) := by
    rw [List.map_map, List.map_map]
    apply List.map_congr_left
    intro queue hmem
    have hlookup := henum.lookup_of_mem (List.mem_map_of_mem hmem)
    have hqueue := (hstore.queues _ _ hlookup).2
    have hname := congrArg QueueState.name (restoreQueue_coerce hqueue)
    simp only [Function.comp_apply, restoreQueue_coerce hqueue, Prod.mk.injEq, and_true]
    exact hname
  simp only [restoreState, snapshotState, SnapshotState.coerce, hrestored]
  rw [InMemoryStorage.queuesInOrder, GoMap.ofList_of_enumerates henum]

theorem InMemoryStorage.restore_snapshot {store : InMemoryStorage}
    (hstore : store.Storable) (receiver : InMemoryStorage) :
    receiver.restore store.snapshot = (.ok (), store) := by
  rw [InMemoryStorage.restore, InMemoryStorage.snapshot,
    SnapshotState.unmarshal_marshal]
  simp only [restoreState_coerce hstore]

/-! Every applied entry keeps the store storable. -/

theorem InMemoryStorage.storable_empty : InMemoryStorage.empty.Storable where
  queues := by
    intro name queue hlookup
    simp [InMemoryStorage.empty] at hlookup

theorem InMemoryStorage.Storable.setQueue {store : InMemoryStorage}
    (hstore : store.Storable) {name : GoString} {queue : QueueState}
    (hname : queue.name = name) (hqueue : queue.Storable) :
    (store.setQueue name queue).Storable where
  queues := by
    intro other found hlookup
    rw [InMemoryStorage.setQueue, GoMap.lookup_insert_eq] at hlookup
    split_ifs at hlookup with hother
    · cases hlookup
      subst hother
      exact ⟨hname, hqueue⟩
    · exact hstore.queues other found hlookup

theorem QueueState.Storable.withMessages {queue : QueueState}
    (hqueue : queue.Storable) {messages : GoMap MessageState}
    (hmessages : ∀ msgID msg, messages.lookup msgID = some msg →
      msg.msgID = msgID ∧ msg.Storable) :
    ({ queue with messages } : QueueState).Storable where
  name := hqueue.name
  subs := hqueue.subs
  messages := hmessages

theorem MessageState.Storable.markAcked {msg : MessageState} (hmsg : msg.Storable)
    (subNames : List GoString) : (msg.markAcked subNames).Storable where
  msgID := hmsg.msgID
  payload := hmsg.payload
  subList := hmsg.subList
  ackedSubs := by
    intro name hmem
    rcases Finset.mem_union.mp hmem with hold | hnew
    · exact hmsg.ackedSubs name hold
    · simp only [List.mem_toFinset, List.mem_filter, decide_eq_true_eq,
        Finmap.mem_keys, Finmap.mem_iff] at hnew
      obtain ⟨_, policy, hlookup⟩ := hnew
      exact (hmsg.subList name policy hlookup).1

theorem InMemoryStorage.Storable.createQueue {store next : InMemoryStorage}
    (hstore : store.Storable) {name : GoString} (hname : Utf8.Valid name)
    (hnext : store.createQueue name = .ok next) : next.Storable := by
  obtain ⟨_, rfl⟩ := createQueue_eq_ok hnext
  refine hstore.setQueue rfl ⟨hname, validSubs_empty, ?_⟩
  intro msgID msg hlookup
  simp at hlookup

theorem InMemoryStorage.Storable.deleteQueue {store next : InMemoryStorage}
    (hstore : store.Storable) {name : GoString}
    (hnext : store.deleteQueue name = .ok next) : next.Storable := by
  obtain rfl := deleteQueue_eq_ok hnext
  constructor
  intro other queue hlookup
  rw [GoMap.lookup_erase_eq] at hlookup
  split_ifs at hlookup
  exact hstore.queues other queue hlookup

theorem InMemoryStorage.Storable.putSubPolicy {store next : InMemoryStorage}
    (hstore : store.Storable) {queueName : GoString} {policy : SubPolicy}
    (hpolicy : policy.Valid)
    (hnext : store.putSubPolicy queueName policy = .ok next) : next.Storable := by
  obtain ⟨queue, hlookup, rfl⟩ := putSubPolicy_eq_ok hnext
  obtain ⟨hname, hqueue⟩ := hstore.queues queueName queue hlookup
  exact hstore.setQueue hname
    ⟨hqueue.name, hqueue.subs.insert hpolicy.subName hpolicy, hqueue.messages⟩

theorem InMemoryStorage.Storable.deleteSubPolicy {store next : InMemoryStorage}
    (hstore : store.Storable) {queueName subName : GoString}
    (hnext : store.deleteSubPolicy queueName subName = .ok next) :
    next.Storable := by
  obtain ⟨queue, hlookup, rfl⟩ := deleteSubPolicy_eq_ok hnext
  obtain ⟨hname, hqueue⟩ := hstore.queues queueName queue hlookup
  exact hstore.setQueue hname
    ⟨hqueue.name, hqueue.subs.erase subName, hqueue.messages⟩

theorem InMemoryStorage.Storable.enqueue {store next : InMemoryStorage}
    (hstore : store.Storable) {queueName msgID payload : GoString}
    {subList : GoMap SubPolicy} (hmsgID : Utf8.Valid msgID)
    (hpayload : Utf8.Valid payload) (hsubs : ValidSubs subList) {info : MessageInfo}
    (hnext : store.enqueue queueName msgID payload subList = .ok (info, next)) :
    next.Storable := by
  have hcounted : ({ store with nextSeq := store.nextSeq + 1 } :
      InMemoryStorage).Storable := ⟨hstore.queues⟩
  cases enqueued_of_enqueue hnext with
  | known => exact hstore
  | unwanted => exact hcounted
  | @stored queue hlookup =>
      obtain ⟨hname, hqueue⟩ := hstore.queues queueName queue hlookup
      refine hcounted.setQueue hname (hqueue.withMessages ?_)
      intro other msg hother
      rw [GoMap.lookup_insert_eq] at hother
      split_ifs at hother with heq
      · cases hother
        exact ⟨heq.symm, hmsgID, hpayload, hsubs, by
          simp [InMemoryStorage.newMessage]⟩
      · exact hqueue.messages other msg hother

theorem InMemoryStorage.Storable.ack {store : InMemoryStorage}
    (hstore : store.Storable) (queueName msgID : GoString)
    (subNames : List GoString) :
    (store.ack queueName msgID subNames).Storable := by
  have hacked := acked_ack store queueName msgID subNames
  generalize store.ack queueName msgID subNames = next at hacked ⊢
  cases hacked with
  | ignored => exact hstore
  | @completed queue _ hlookup =>
      obtain ⟨hname, hqueue⟩ := hstore.queues queueName queue hlookup
      refine hstore.setQueue hname (hqueue.withMessages ?_)
      intro other found hother
      rw [GoMap.lookup_erase_eq] at hother
      split_ifs at hother
      exact hqueue.messages other found hother
  | @marked queue msg hlookup hmsg =>
      obtain ⟨hname, hqueue⟩ := hstore.queues queueName queue hlookup
      obtain ⟨hid, hstorable⟩ := hqueue.messages msgID msg hmsg
      refine hstore.setQueue hname (hqueue.withMessages ?_)
      intro other found hother
      rw [GoMap.lookup_insert_eq] at hother
      split_ifs at hother with heq
      · cases hother
        exact ⟨hid.trans heq.symm, hstorable.markAcked subNames⟩
      · exact hqueue.messages other found hother

theorem FSM.storable_applyCommand {store : InMemoryStorage}
    (hstore : store.Storable) {cmd : Command} (hcmd : cmd.Valid) (index : UInt64) :
    (FSM.applyCommand index store cmd).2.Storable := by
  have happlied := applied_applyCommand index store cmd
  generalize (applyCommand index store cmd).2 = next at happlied ⊢
  cases happlied with
  | refused => exact hstore
  | createdQueue htype hnext => exact hstore.createQueue hcmd.queueName hnext
  | deletedQueue htype hnext => exact hstore.deleteQueue hnext
  | putPolicy htype hnext => exact hstore.putSubPolicy hcmd.policy hnext
  | deletedPolicy htype hnext => exact hstore.deleteSubPolicy hnext
  | acked htype => exact hstore.ack _ _ _
  | enqueued htype hnext => exact hstore.enqueue hcmd.msgID hcmd.payload hcmd.subList hnext

theorem FSM.storable_apply (store : InMemoryStorage) (entry : LogEntry)
    (hstore : store.Storable) : (FSM.apply store entry).2.Storable := by
  unfold FSM.apply
  split
  · exact hstore
  · rename_i hdecode
    exact storable_applyCommand hstore (Command.valid_of_decode hdecode) entry.index

/-- A replica restored from a snapshot of any log prefix is the replica that
applied the prefix, so every later entry finds the same state and gets the same
response as on a replica that applied the whole log. -/
theorem FSM.restored_replica_indistinguishable
    (before after : List LogEntry) (receiver : InMemoryStorage) :
    let source := (FSM.run .empty before).2
    let restored := FSM.restore receiver (FSM.snapshot source)
    let whole := FSM.run .empty (before ++ after)
    restored.1 = .ok () ∧
      (FSM.run restored.2 after).2 = whole.2 ∧
      (FSM.run restored.2 after).1 = whole.1.drop before.length := by
  have hstorable : (FSM.run .empty before).2.Storable :=
    run_invariant storable_apply InMemoryStorage.storable_empty before
  have hrestore := InMemoryStorage.restore_snapshot hstorable receiver
  have hlength := length_run .empty before
  simp only [FSM.restore, FSM.snapshot, hrestore, run_append]
  refine ⟨trivial, trivial, ?_⟩
  rw [← hlength, List.drop_left]

end SimonMQ.Dist
