import SimonMQ.Dist.Fsm

namespace SimonMQ.Dist

open SimonMQ.Go

/-! The algebra of `Ack`.  An ack changes one message of one queue, and what it makes of
the message depends on the set of names alone. -/

def QueueState.ack (queue : QueueState) (msgID : GoString) (subNames : List GoString) :
    QueueState :=
  { queue with messages := queue.messages.adjust msgID (MessageState.acknowledge subNames) }

theorem MessageState.markAcked_markAcked (msg : MessageState) (first second : List GoString) :
    (msg.markAcked first).markAcked second = msg.markAcked (first ++ second) := by
  simp only [markAcked, List.filter_append, List.toFinset_append, Finset.union_assoc]
  rfl

/-- An ack of a message that is gone by then is covered by the ack that completed it. -/
theorem MessageState.acknowledge_bind (first second : List GoString) (msg : MessageState) :
    (msg.acknowledge first).bind (acknowledge second) = msg.acknowledge (first ++ second) := by
  by_cases hdone : (msg.markAcked first).subList.len ≤ (msg.markAcked first).ackedSubs.card
  · have hmore : (msg.markAcked first).ackedSubs.card ≤
        (msg.markAcked (first ++ second)).ackedSubs.card := by
      rw [← markAcked_markAcked]
      exact Finset.card_le_card Finset.subset_union_left
    have hall : (msg.markAcked (first ++ second)).subList.len ≤
        (msg.markAcked (first ++ second)).ackedSubs.card := hdone.trans hmore
    rw [acknowledge, if_pos hdone, acknowledge, if_pos hall, Option.bind_none]
  · rw [acknowledge, if_neg hdone, Option.bind_some, acknowledge, markAcked_markAcked,
      acknowledge]

theorem QueueState.ack_ack (queue : QueueState) (msgID : GoString)
    (first second : List GoString) :
    (queue.ack msgID first).ack msgID second = queue.ack msgID (first ++ second) := by
  simp only [ack, GoMap.adjust_adjust, MessageState.acknowledge_bind]

theorem MessageState.acknowledge_congr {first second : List GoString}
    (hsame : ∀ name, name ∈ first ↔ name ∈ second) :
    acknowledge first = acknowledge second := by
  funext msg
  have hmark : msg.markAcked first = msg.markAcked second := by
    rw [markAcked, markAcked]
    congr 2
    ext name
    simp [hsame]
  rw [acknowledge, acknowledge, hmark]

theorem QueueState.ack_comm (queue : QueueState) (left right : GoString)
    (first second : List GoString) :
    (queue.ack left first).ack right second = (queue.ack right second).ack left first := by
  by_cases hids : left = right
  · subst hids
    have hsame : ∀ name, name ∈ first ++ second ↔ name ∈ second ++ first := by
      intro name
      rw [List.mem_append, List.mem_append, or_comm]
    rw [ack_ack, ack_ack, ack, ack, MessageState.acknowledge_congr hsame]
  · simp only [ack, GoMap.adjust_comm _ hids]

namespace InMemoryStorage

theorem ack_eq_adjust (store : InMemoryStorage) (queueName msgID : GoString)
    (subNames : List GoString) :
    store.ack queueName msgID subNames =
      { store with
        queues := store.queues.adjust queueName fun queue => some (queue.ack msgID subNames) } := by
  rw [ack]
  cases hqueue : store.queues.lookup queueName with
  | none => simp only [GoMap.adjust, hqueue]
  | some queue =>
      simp only [GoMap.adjust, hqueue, QueueState.ack]
      cases hmsg : queue.messages.lookup msgID with
      | none => simp only [GoMap.insert_of_lookup hqueue]
      | some msg =>
          simp only [MessageState.acknowledge, setQueue]
          split_ifs <;> rfl

variable (store : InMemoryStorage) (queueName msgID : GoString) (subNames : List GoString)

theorem lookup_ack (name : GoString) :
    (store.ack queueName msgID subNames).queues.lookup name =
      (store.queues.lookup name).map fun queue =>
        if name = queueName then queue.ack msgID subNames else queue := by
  rw [ack_eq_adjust, GoMap.lookup_adjust]
  split_ifs with hname
  · subst hname
    cases store.queues.lookup name <;> rfl
  · simp

theorem setQueue_ack (name : GoString) (queue : QueueState) :
    (store.ack queueName msgID subNames).setQueue name
        (if name = queueName then queue.ack msgID subNames else queue) =
      (store.setQueue name queue).ack queueName msgID subNames := by
  rw [ack_eq_adjust, ack_eq_adjust, setQueue, setQueue, InMemoryStorage.mk.injEq]
  refine ⟨?_, rfl⟩
  apply Finmap.ext_lookup
  intro other
  rw [GoMap.lookup_insert_eq, GoMap.lookup_adjust, GoMap.lookup_adjust,
    GoMap.lookup_insert_eq, GoMap.lookup_insert_eq]
  by_cases hother : other = name
  · subst hother
    by_cases hname : other = queueName
    · subst hname
      simp
    · simp [hname]
  · by_cases hname : other = queueName
    · subst hname
      simp [hother]
    · simp [hother, hname]

theorem createQueue_ack (name : GoString) :
    (store.ack queueName msgID subNames).createQueue name =
      (store.createQueue name).map fun next => next.ack queueName msgID subNames := by
  rw [createQueue, createQueue, lookup_ack]
  cases store.queues.lookup name with
  | some queue => rfl
  | none =>
      have hnew : ({ name, subs := ∅, messages := ∅ } : QueueState) =
          if name = queueName then
            QueueState.ack { name, subs := ∅, messages := ∅ } msgID subNames
          else { name, subs := ∅, messages := ∅ } := by
        split_ifs
        · simp [QueueState.ack, GoMap.adjust]
        · rfl
      rw [Option.map_none, Except.map, ← setQueue_ack, ← hnew]

theorem deleteQueue_ack (name : GoString) :
    (store.ack queueName msgID subNames).deleteQueue name =
      (store.deleteQueue name).map fun next => next.ack queueName msgID subNames := by
  rw [deleteQueue, deleteQueue, lookup_ack]
  cases store.queues.lookup name with
  | none => rfl
  | some queue => simp only [Option.map_some, Except.map, ack_eq_adjust, GoMap.adjust_erase]

theorem setQueue_subs_ack (name : GoString) (queue : QueueState) (subs : GoMap SubPolicy) :
    (store.ack queueName msgID subNames).setQueue name
        { if name = queueName then queue.ack msgID subNames else queue with subs } =
      (store.setQueue name { queue with subs }).ack queueName msgID subNames := by
  rw [← setQueue_ack]
  split_ifs <;> rfl

theorem subs_ack (name : GoString) (queue : QueueState) :
    (if name = queueName then queue.ack msgID subNames else queue).subs = queue.subs := by
  split_ifs <;> rfl

theorem putSubPolicy_ack (name : GoString) (policy : SubPolicy) :
    (store.ack queueName msgID subNames).putSubPolicy name policy =
      (store.putSubPolicy name policy).map fun next => next.ack queueName msgID subNames := by
  rw [putSubPolicy, putSubPolicy, lookup_ack]
  cases store.queues.lookup name with
  | none => rfl
  | some queue =>
      simp only [Option.map_some, Except.map, subs_ack]
      rw [setQueue_subs_ack]

theorem deleteSubPolicy_ack (name subName : GoString) :
    (store.ack queueName msgID subNames).deleteSubPolicy name subName =
      (store.deleteSubPolicy name subName).map fun next =>
        next.ack queueName msgID subNames := by
  rw [deleteSubPolicy, deleteSubPolicy, lookup_ack]
  cases store.queues.lookup name with
  | none => rfl
  | some queue =>
      simp only [Option.map_some, Except.map, subs_ack]
      rw [setQueue_subs_ack]

theorem lookup_messages_ack {name newID : GoString}
    (hother : ¬ (name = queueName ∧ newID = msgID)) (queue : QueueState) :
    (if name = queueName then queue.ack msgID subNames else queue).messages.lookup newID =
      queue.messages.lookup newID := by
  split_ifs with hname
  · rw [QueueState.ack, GoMap.lookup_adjust, if_neg fun hid => hother ⟨hname, hid⟩]
  · rfl

theorem withSeq_ack (nextSeq : UInt64) :
    { store.ack queueName msgID subNames with nextSeq } =
      ack { store with nextSeq } queueName msgID subNames := by
  rw [ack_eq_adjust, ack_eq_adjust]

theorem setQueue_messages_ack {name newID : GoString}
    (hother : ¬ (name = queueName ∧ newID = msgID)) (queue : QueueState)
    (msg : MessageState) :
    (store.ack queueName msgID subNames).setQueue name
        { if name = queueName then queue.ack msgID subNames else queue with
          messages := (if name = queueName then queue.ack msgID subNames
            else queue).messages.insert newID msg } =
      (store.setQueue name { queue with messages := queue.messages.insert newID msg }).ack
        queueName msgID subNames := by
  rw [← setQueue_ack]
  split_ifs with hname
  · have hids : msgID ≠ newID := fun hid => hother ⟨hname, hid.symm⟩
    simp only [QueueState.ack, GoMap.adjust_insert_of_ne _ hids]
  · rfl

theorem enqueue_ack {name newID : GoString}
    (hother : ¬ (name = queueName ∧ newID = msgID)) (payload : GoString)
    (subList : GoMap SubPolicy) :
    (store.ack queueName msgID subNames).enqueue name newID payload subList =
      (store.enqueue name newID payload subList).map fun answer =>
        (answer.1, answer.2.ack queueName msgID subNames) := by
  rw [enqueue, enqueue, lookup_ack]
  cases store.queues.lookup name with
  | none => rfl
  | some queue =>
      simp only [Option.map_some, lookup_messages_ack _ _ _ hother]
      cases queue.messages.lookup newID with
      | some existing => rfl
      | none =>
          have hnew : (store.ack queueName msgID subNames).newMessage newID payload subList =
              store.newMessage newID payload subList := by
            rw [ack_eq_adjust]
            rfl
          have hseq : (store.ack queueName msgID subNames).nextSeq = store.nextSeq := by
            rw [ack_eq_adjust]
          simp only [hnew, hseq, withSeq_ack, setQueue_messages_ack _ _ _ _ hother]
          split_ifs <;> rfl

theorem ack_ack (first second : List GoString) :
    (store.ack queueName msgID first).ack queueName msgID second =
      store.ack queueName msgID (first ++ second) := by
  simp only [ack_eq_adjust, GoMap.adjust_adjust, Option.bind_some, QueueState.ack_ack]

theorem ack_congr {first second : List GoString}
    (hsame : ∀ name, name ∈ first ↔ name ∈ second) :
    store.ack queueName msgID first = store.ack queueName msgID second := by
  simp only [ack_eq_adjust, QueueState.ack, MessageState.acknowledge_congr hsame]

theorem ack_comm (left right leftID rightID : GoString) (first second : List GoString) :
    (store.ack left leftID first).ack right rightID second =
      (store.ack right rightID second).ack left leftID first := by
  simp only [ack_eq_adjust, InMemoryStorage.mk.injEq, and_true]
  by_cases hnames : left = right
  · subst hnames
    rw [GoMap.adjust_adjust, GoMap.adjust_adjust]
    congr 1
    funext queue
    rw [Option.bind_some, Option.bind_some, QueueState.ack_comm]
  · exact GoMap.adjust_comm _ hnames _ _

end InMemoryStorage

theorem FSM.settle_map (store : InMemoryStorage) (outcome : Except StorageError InMemoryStorage)
    (change : InMemoryStorage → InMemoryStorage) :
    settle (change store) (outcome.map change) =
      ((settle store outcome).1, change (settle store outcome).2) := by
  cases outcome <;> rfl

theorem FSM.applyCommand_ack (store : InMemoryStorage) (queueName msgID : GoString)
    (subNames : List GoString) (index : UInt64) {cmd : Command}
    (hother : ¬ (cmd.type = .enqueue ∧ cmd.queueName = queueName ∧ cmd.msgID = msgID)) :
    applyCommand index (store.ack queueName msgID subNames) cmd =
      ((applyCommand index store cmd).1,
        (applyCommand index store cmd).2.ack queueName msgID subNames) := by
  unfold applyCommand
  cases htype : cmd.type with
  | createQueue =>
      dsimp only
      rw [InMemoryStorage.createQueue_ack]
      exact settle_map _ _ fun next => next.ack queueName msgID subNames
  | deleteQueue =>
      dsimp only
      rw [InMemoryStorage.deleteQueue_ack]
      exact settle_map _ _ fun next => next.ack queueName msgID subNames
  | putSubPolicy =>
      dsimp only
      rw [InMemoryStorage.putSubPolicy_ack]
      exact settle_map _ _ fun next => next.ack queueName msgID subNames
  | deleteSubPolicy =>
      dsimp only
      rw [InMemoryStorage.deleteSubPolicy_ack]
      exact settle_map _ _ fun next => next.ack queueName msgID subNames
  | ack =>
      dsimp only
      rw [InMemoryStorage.ack_comm]
  | enqueue =>
      have hpair : ¬ (cmd.queueName = queueName ∧ cmd.msgID = msgID) :=
        fun hpair => hother ⟨htype, hpair⟩
      dsimp only
      rw [InMemoryStorage.enqueue_ack _ _ _ _ hpair]
      cases store.enqueue cmd.queueName cmd.msgID cmd.payload cmd.subList <;> rfl
  | unknown code => rfl

/-- Acks of a message may be split, merged, repeated and reordered, and they commute with
every command but an `Enqueue` of the same id to the same queue. -/
theorem acks_split_merge_and_commute (store : InMemoryStorage) (queueName msgID : GoString)
    (first second : List GoString) :
    (store.ack queueName msgID first).ack queueName msgID second =
        (store.ack queueName msgID second).ack queueName msgID first ∧
      (store.ack queueName msgID first).ack queueName msgID second =
        store.ack queueName msgID (first ++ second) ∧
      (store.ack queueName msgID first).ack queueName msgID first =
        store.ack queueName msgID first ∧
      ∀ (ackIndex index : UInt64) (cmd : Command),
        ¬ (cmd.type = .enqueue ∧ cmd.queueName = queueName ∧ cmd.msgID = msgID) →
        let ack := Command.newAck queueName msgID first
        let ackFirst := FSM.applyCommand ackIndex store ack
        let cmdSecond := FSM.applyCommand index ackFirst.2 cmd
        let cmdFirst := FSM.applyCommand index store cmd
        let ackSecond := FSM.applyCommand ackIndex cmdFirst.2 ack
        cmdSecond.2 = ackSecond.2 ∧ cmdSecond.1 = cmdFirst.1 ∧
          ackSecond.1 = ackFirst.1 := by
  refine ⟨store.ack_comm _ _ _ _ first second, store.ack_ack _ _ first second, ?_, ?_⟩
  · rw [InMemoryStorage.ack_ack]
    apply InMemoryStorage.ack_congr
    intro name
    rw [List.mem_append, or_self]
  · intro ackIndex index cmd hother ack ackFirst cmdSecond cmdFirst ackSecond
    have hcommute : cmdSecond =
        (cmdFirst.1, cmdFirst.2.ack queueName msgID first) :=
      FSM.applyCommand_ack store queueName msgID first index hother
    rw [hcommute]
    exact ⟨rfl, rfl, rfl⟩

def owedToTwo : InMemoryStorage :=
  let policy (name : GoString) : SubPolicy := { SubPolicy.zero with subName := name }
  let subList := ((∅ : GoMap SubPolicy).insert (lit "a") (policy (lit "a"))).insert
    (lit "b") (policy (lit "b"))
  InMemoryStorage.empty.setQueue (lit "q")
    { name := lit "q", subs := ∅,
      messages := (∅ : GoMap MessageState).insert (lit "m")
        { seq := 0, msgID := lit "m", payload := lit "hi", subList, ackedSubs := ∅ } }

theorem split_acks_commute_with_deletion :
    (owedToTwo.ack (lit "q") (lit "m") [lit "a"]).ack (lit "q") (lit "m") [lit "b"] =
        owedToTwo.ack (lit "q") (lit "m") ([lit "a"] ++ [lit "b"]) ∧
      (FSM.applyCommand 2 (FSM.applyCommand 1 owedToTwo
          (.newAck (lit "q") (lit "m") [lit "a"])).2 (.newDeleteQueue (lit "q"))).2 =
        (FSM.applyCommand 1 (FSM.applyCommand 2 owedToTwo
          (.newDeleteQueue (lit "q"))).2 (.newAck (lit "q") (lit "m") [lit "a"])).2 := by
  have hlaws := acks_split_merge_and_commute owedToTwo (lit "q") (lit "m") [lit "a"] [lit "b"]
  have hother : ¬ ((Command.newDeleteQueue (lit "q")).type = .enqueue ∧
      (Command.newDeleteQueue (lit "q")).queueName = lit "q" ∧
      (Command.newDeleteQueue (lit "q")).msgID = lit "m") := by
    intro hsame
    exact absurd hsame.1 (by decide)
  exact ⟨hlaws.2.1, (hlaws.2.2.2 1 2 _ hother).1⟩

end SimonMQ.Dist
