import SimonMQ.Model.SubPolicy

namespace SimonMQ.Dist

open SimonMQ.Go

/-! The replicated state: which queues exist, who subscribes to them, and which
messages still have subscribers owed a delivery. -/

structure MessageInfo where
  msgID : GoString
  payload : GoString
  subList : GoMap SubPolicy
  ackedSubs : List GoString

/-- `PendingSubs`: the subscribers of a message it does not list as acked. -/
def MessageInfo.pendingSubs (msg : MessageInfo) : GoMap SubPolicy :=
  msg.subList.retain fun name _ => name ∉ msg.ackedSubs

inductive StorageError
  | queueNotFound
  | queueExists
  deriving DecidableEq, Repr

structure MessageState where
  seq : UInt64
  msgID : GoString
  payload : GoString
  subList : GoMap SubPolicy
  ackedSubs : Finset GoString

/-- The message with the names that its snapshot owes marked as acked. -/
def MessageState.markAcked (msg : MessageState) (subNames : List GoString) :
    MessageState :=
  { msg with
    ackedSubs := msg.ackedSubs ∪
      (subNames.filter fun name => name ∈ msg.subList.keys).toFinset }

/-- What an `Ack` makes of its message: it goes once nobody is owed it. -/
def MessageState.acknowledge (subNames : List GoString) (msg : MessageState) :
    Option MessageState :=
  let msg := msg.markAcked subNames
  if msg.subList.len ≤ msg.ackedSubs.card then none else some msg

structure QueueState where
  name : GoString
  subs : GoMap SubPolicy
  messages : GoMap MessageState

structure InMemoryStorage where
  queues : GoMap QueueState
  nextSeq : UInt64

/-- `sortedKeys` of a set. -/
def sortedNames (names : Finset GoString) : List GoString := sortStrings names.val

def toMessageInfo (msg : MessageState) : MessageInfo where
  msgID := msg.msgID
  payload := msg.payload
  subList := msg.subList
  ackedSubs := sortedNames msg.ackedSubs

def QueueState.inOrder (queue : QueueState) : List MessageState :=
  ((sortedEntries queue.messages).map Prod.snd).insertionSort
    fun left right => left.seq ≤ right.seq

def messagesInOrder (queue : QueueState) : List MessageInfo :=
  queue.inOrder.map toMessageInfo

namespace InMemoryStorage

/-- `NewInMemoryStorage`. -/
def empty : InMemoryStorage where
  queues := ∅
  nextSeq := 0

def setQueue (store : InMemoryStorage) (name : GoString) (queue : QueueState) :
    InMemoryStorage :=
  { store with queues := store.queues.insert name queue }

/-! Mutations return the new store, or an error that leaves the store alone. -/

def createQueue (store : InMemoryStorage) (name : GoString) :
    Except StorageError InMemoryStorage :=
  match store.queues.lookup name with
  | some _ => .error .queueExists
  | none => .ok (store.setQueue name { name, subs := ∅, messages := ∅ })

def deleteQueue (store : InMemoryStorage) (name : GoString) :
    Except StorageError InMemoryStorage :=
  match store.queues.lookup name with
  | none => .error .queueNotFound
  | some _ => .ok { store with queues := store.queues.erase name }

def putSubPolicy (store : InMemoryStorage) (queueName : GoString)
    (policy : SubPolicy) : Except StorageError InMemoryStorage :=
  match store.queues.lookup queueName with
  | none => .error .queueNotFound
  | some queue =>
      .ok (store.setQueue queueName
        { queue with subs := queue.subs.insert policy.subName policy })

def deleteSubPolicy (store : InMemoryStorage) (queueName subName : GoString) :
    Except StorageError InMemoryStorage :=
  match store.queues.lookup queueName with
  | none => .error .queueNotFound
  | some queue =>
      .ok (store.setQueue queueName { queue with subs := queue.subs.erase subName })

def newMessage (store : InMemoryStorage) (msgID payload : GoString)
    (subList : GoMap SubPolicy) : MessageState where
  seq := store.nextSeq
  msgID := msgID
  payload := payload
  subList := subList
  ackedSubs := ∅

def enqueue (store : InMemoryStorage) (queueName msgID payload : GoString)
    (subList : GoMap SubPolicy) :
    Except StorageError (MessageInfo × InMemoryStorage) :=
  match store.queues.lookup queueName with
  | none => .error .queueNotFound
  | some queue =>
      match queue.messages.lookup msgID with
      | some existing => .ok (toMessageInfo existing, store)
      | none =>
          let msg := store.newMessage msgID payload subList
          let store := { store with nextSeq := store.nextSeq + 1 }
          -- A message nobody subscribes to is complete and never stored.
          if 0 < msg.subList.len then
            .ok (toMessageInfo msg, store.setQueue queueName
              { queue with messages := queue.messages.insert msgID msg })
          else .ok (toMessageInfo msg, store)

def ack (store : InMemoryStorage) (queueName msgID : GoString)
    (subNames : List GoString) : InMemoryStorage :=
  match store.queues.lookup queueName with
  | none => store
  | some queue =>
      match queue.messages.lookup msgID with
      | none => store
      | some msg =>
          let msg := msg.markAcked subNames
          let messages :=
            if msg.subList.len ≤ msg.ackedSubs.card then queue.messages.erase msgID
            else queue.messages.insert msgID msg
          store.setQueue queueName { queue with messages }

/-! Reads. -/

def queueNames (store : InMemoryStorage) : List GoString := sortedKeys store.queues

def fetchSubList (store : InMemoryStorage) (queueName : GoString) :
    Option (GoMap SubPolicy) :=
  (store.queues.lookup queueName).map QueueState.subs

def pendingMessages (store : InMemoryStorage) (queueName : GoString) :
    Except StorageError (List MessageInfo) :=
  match store.queues.lookup queueName with
  | none => .error .queueNotFound
  | some queue => .ok (messagesInOrder queue)

/-! What a mutation that went through has done. -/

section Outcomes

variable {store next : InMemoryStorage} {queueName : GoString}

theorem createQueue_eq_ok (hnext : store.createQueue queueName = .ok next) :
    store.queues.lookup queueName = none ∧
      next = store.setQueue queueName { name := queueName, subs := ∅, messages := ∅ } := by
  unfold createQueue at hnext
  split at hnext
  · contradiction
  · cases hnext
    exact ⟨‹_›, rfl⟩

theorem deleteQueue_eq_ok (hnext : store.deleteQueue queueName = .ok next) :
    next = { store with queues := store.queues.erase queueName } := by
  unfold deleteQueue at hnext
  split at hnext
  · contradiction
  · cases hnext
    rfl

theorem putSubPolicy_eq_ok {policy : SubPolicy}
    (hnext : store.putSubPolicy queueName policy = .ok next) :
    ∃ queue, store.queues.lookup queueName = some queue ∧
      next = store.setQueue queueName
        { queue with subs := queue.subs.insert policy.subName policy } := by
  unfold putSubPolicy at hnext
  split at hnext
  · contradiction
  · cases hnext
    exact ⟨_, ‹_›, rfl⟩

theorem deleteSubPolicy_eq_ok {subName : GoString}
    (hnext : store.deleteSubPolicy queueName subName = .ok next) :
    ∃ queue, store.queues.lookup queueName = some queue ∧
      next = store.setQueue queueName { queue with subs := queue.subs.erase subName } := by
  unfold deleteSubPolicy at hnext
  split at hnext
  · contradiction
  · cases hnext
    exact ⟨_, ‹_›, rfl⟩

inductive Enqueued (store : InMemoryStorage) (queueName msgID payload : GoString)
    (subList : GoMap SubPolicy) : MessageInfo → InMemoryStorage → Prop
  | known {queue : QueueState} {existing : MessageState}
      (hqueue : store.queues.lookup queueName = some queue)
      (hexisting : queue.messages.lookup msgID = some existing) :
      Enqueued store queueName msgID payload subList (toMessageInfo existing) store
  | stored {queue : QueueState} (hqueue : store.queues.lookup queueName = some queue)
      (hnew : queue.messages.lookup msgID = none) (hsubs : 0 < subList.len) :
      Enqueued store queueName msgID payload subList
        (toMessageInfo (store.newMessage msgID payload subList))
        ({ store with nextSeq := store.nextSeq + 1 }.setQueue queueName
          { queue with
            messages := queue.messages.insert msgID
              (store.newMessage msgID payload subList) })
  | unwanted {queue : QueueState} (hqueue : store.queues.lookup queueName = some queue)
      (hnew : queue.messages.lookup msgID = none) (hsubs : ¬ 0 < subList.len) :
      Enqueued store queueName msgID payload subList
        (toMessageInfo (store.newMessage msgID payload subList))
        { store with nextSeq := store.nextSeq + 1 }

theorem enqueued_of_enqueue {msgID payload : GoString} {subList : GoMap SubPolicy}
    {info : MessageInfo}
    (hnext : store.enqueue queueName msgID payload subList = .ok (info, next)) :
    Enqueued store queueName msgID payload subList info next := by
  unfold enqueue at hnext
  split at hnext
  · contradiction
  rename_i queue hqueue
  split at hnext
  · cases hnext
    exact .known hqueue ‹_›
  · dsimp only at hnext
    split_ifs at hnext with hsubs
    · cases hnext
      exact .stored hqueue ‹_› hsubs
    · cases hnext
      exact .unwanted hqueue ‹_› hsubs

inductive Acked (store : InMemoryStorage) (queueName msgID : GoString)
    (subNames : List GoString) : InMemoryStorage → Prop
  | ignored (hmissing : ∀ queue, store.queues.lookup queueName = some queue →
      queue.messages.lookup msgID = none) : Acked store queueName msgID subNames store
  | completed {queue : QueueState} {msg : MessageState}
      (hqueue : store.queues.lookup queueName = some queue)
      (hmsg : queue.messages.lookup msgID = some msg)
      (hdone : (msg.markAcked subNames).subList.len ≤
        (msg.markAcked subNames).ackedSubs.card) :
      Acked store queueName msgID subNames
        (store.setQueue queueName { queue with messages := queue.messages.erase msgID })
  | marked {queue : QueueState} {msg : MessageState}
      (hqueue : store.queues.lookup queueName = some queue)
      (hmsg : queue.messages.lookup msgID = some msg)
      (howed : ¬ (msg.markAcked subNames).subList.len ≤
        (msg.markAcked subNames).ackedSubs.card) :
      Acked store queueName msgID subNames
        (store.setQueue queueName
          { queue with messages := queue.messages.insert msgID (msg.markAcked subNames) })

theorem acked_ack (store : InMemoryStorage) (queueName msgID : GoString)
    (subNames : List GoString) :
    Acked store queueName msgID subNames (store.ack queueName msgID subNames) := by
  unfold ack
  cases hqueue : store.queues.lookup queueName with
  | none => exact .ignored fun queue hfound => by simp [hqueue] at hfound
  | some queue =>
      dsimp only
      cases hmsg : queue.messages.lookup msgID with
      | none =>
          refine .ignored fun found hfound => ?_
          cases hqueue.symm.trans hfound
          exact hmsg
      | some msg =>
          dsimp only
          split_ifs with hdone
          · exact .completed hqueue hmsg hdone
          · exact .marked hqueue hmsg hdone

end Outcomes

end InMemoryStorage

end SimonMQ.Dist
