import SimonMQ.Dist.Worklist

namespace SimonMQ.Dist

open SimonMQ.Go

/-! A committed `Enqueue` that is applied once more.  The store recognises it by the
message it still holds; a settled message has been dropped, and with it the id. -/

def MessageState.Owes (msg : MessageState) (subName : GoString) : Prop :=
  subName ∈ msg.subList.keys ∧ subName ∉ msg.ackedSubs

namespace InMemoryStorage

/-- The messages of the store, by queue and id, with the subscribers they are owed to. -/
def owedPairs (store : InMemoryStorage) : Set ((GoString × GoString) × GoString) :=
  {pair | ∃ msg, store.Holds pair.1.1 pair.1.2 msg ∧ msg.Owes pair.2}

/-- The store holds the message of the command, or has no place for it: its queue does
not exist, or nobody subscribes. -/
def recognises (store : InMemoryStorage) (cmd : Command) : Bool :=
  match store.queues.lookup cmd.queueName with
  | none => true
  | some queue => (queue.messages.lookup cmd.msgID).isSome || cmd.subList.len = 0

variable {store : InMemoryStorage} {cmd : Command}

theorem owedPairs_of_queues {next : InMemoryStorage} (hqueues : next.queues = store.queues) :
    next.owedPairs = store.owedPairs := by
  simp only [owedPairs, Holds, hqueues]

theorem owedPairs_enqueue_iff (henqueue : cmd.type = .enqueue) (index : UInt64) :
    (FSM.applyCommand index store cmd).2.owedPairs = store.owedPairs ↔
      store.recognises cmd = true := by
  simp only [FSM.applyCommand, henqueue, InMemoryStorage.enqueue, recognises]
  cases hqueue : store.queues.lookup cmd.queueName with
  | none => simp
  | some queue =>
      dsimp only
      cases hmsg : queue.messages.lookup cmd.msgID with
      | some msg => simp
      | none =>
          by_cases hsubs : 0 < cmd.subList.len
          · have hnobody : ¬ cmd.subList.len = 0 := Nat.ne_of_gt hsubs
            obtain ⟨subName, hsub⟩ := Finset.card_pos.mp hsubs
            simp only [newMessage, hsubs, if_true, Option.isSome_none, hnobody, decide_false,
              Bool.or_self, Bool.false_eq_true, iff_false]
            intro hsame
            have hafter : ((cmd.queueName, cmd.msgID), subName) ∈ store.owedPairs := by
              rw [← hsame]
              exact ⟨_, holds_setQueue.mpr (.inl ⟨rfl, Finmap.lookup_insert _⟩), hsub,
                Finset.notMem_empty _⟩
            obtain ⟨msg, ⟨found, hfound, hlookup⟩, _⟩ := hafter
            rw [hqueue] at hfound
            cases hfound
            rw [hmsg] at hlookup
            contradiction
          · simp only [newMessage, Option.isSome_none, Bool.false_or, decide_eq_true_eq,
              Nat.eq_zero_of_not_pos hsubs, iff_true]
            exact owedPairs_of_queues rfl

/-- The message is held for a subscriber who has not acked, and for no strangers. -/
def Awaits (store : InMemoryStorage) (queueName msgID subName : GoString) : Prop :=
  ∃ msg, store.Holds queueName msgID msg ∧ msg.ackedSubs ⊆ msg.subList.keys ∧
    msg.Owes subName

variable {queueName msgID subName : GoString}

theorem Awaits.setQueue (hawaits : store.Awaits queueName msgID subName) {name : GoString}
    {queue : QueueState} (hqueue : name = queueName → ∀ old,
      store.queues.lookup queueName = some old →
        queue.messages.lookup msgID = old.messages.lookup msgID) :
    (store.setQueue name queue).Awaits queueName msgID subName := by
  obtain ⟨msg, ⟨old, hold, hmsg⟩, hrest⟩ := hawaits
  refine ⟨msg, holds_setQueue.mpr ?_, hrest⟩
  by_cases hname : name = queueName
  · exact .inl ⟨hname.symm, (hqueue hname old hold).trans hmsg⟩
  · exact .inr ⟨Ne.symm hname, old, hold, hmsg⟩

theorem Awaits.open_markAcked (hawaits : store.Awaits queueName msgID subName)
    {queue : QueueState} {msg : MessageState} {subNames : List GoString}
    (hqueue : store.queues.lookup queueName = some queue)
    (hmsg : queue.messages.lookup msgID = some msg) (hunacked : subName ∉ subNames) :
    ((msg.markAcked subNames).ackedSubs ⊆ msg.subList.keys ∧
      (msg.markAcked subNames).Owes subName) ∧
      ¬ (msg.markAcked subNames).subList.len ≤ (msg.markAcked subNames).ackedSubs.card := by
  obtain ⟨found, ⟨old, hold, hfound⟩, hsubset, hsub, hwaiting⟩ := hawaits
  rw [hqueue] at hold
  cases hold
  rw [hmsg] at hfound
  cases hfound
  have hstill : subName ∉ (msg.markAcked subNames).ackedSubs := by
    simp [MessageState.markAcked, hwaiting, hunacked]
  have hkept : (msg.markAcked subNames).ackedSubs ⊆ msg.subList.keys :=
    Finset.union_subset hsubset fun name hmem => by
      simpa using (List.mem_filter.mp (List.mem_toFinset.mp hmem)).2
  refine ⟨⟨hkept, hsub, hstill⟩, fun hle => ?_⟩
  exact hstill ((Finset.eq_of_subset_of_card_le hkept hle).symm ▸ hsub)

theorem Awaits.ack (hawaits : store.Awaits queueName msgID subName)
    {name ackedID : GoString} {subNames : List GoString}
    (hunacked : name = queueName → ackedID = msgID → subName ∉ subNames) :
    (store.ack name ackedID subNames).Awaits queueName msgID subName := by
  have hacked := acked_ack store name ackedID subNames
  generalize store.ack name ackedID subNames = next at hacked ⊢
  have hother : ∀ {queue : QueueState} {messages : GoMap MessageState},
      store.queues.lookup name = some queue → ¬ (name = queueName ∧ ackedID = msgID) →
      (msgID ≠ ackedID → messages.lookup msgID = queue.messages.lookup msgID) →
      (store.setQueue name { queue with messages }).Awaits queueName msgID subName := by
    intro queue messages hqueue hsame hmessages
    refine hawaits.setQueue ?_
    intro hname old hold
    rw [← hname, hqueue] at hold
    cases hold
    exact hmessages fun hid => hsame ⟨hname, hid.symm⟩
  cases hacked with
  | ignored => exact hawaits
  | @completed queue acked hqueue hmsg hdone =>
      by_cases hsame : name = queueName ∧ ackedID = msgID
      · obtain ⟨rfl, rfl⟩ := hsame
        exact absurd hdone (hawaits.open_markAcked hqueue hmsg (hunacked rfl rfl)).2
      · exact hother hqueue hsame fun hid => by rw [GoMap.lookup_erase_eq, if_neg hid]
  | @marked queue acked hqueue hmsg =>
      by_cases hsame : name = queueName ∧ ackedID = msgID
      · obtain ⟨rfl, rfl⟩ := hsame
        exact ⟨acked.markAcked subNames,
          holds_setQueue.mpr (.inl ⟨rfl, Finmap.lookup_insert _⟩),
          (hawaits.open_markAcked hqueue hmsg (hunacked rfl rfl)).1⟩
      · exact hother hqueue hsame fun hid => by rw [GoMap.lookup_insert_eq, if_neg hid]

theorem Awaits.enqueue (hawaits : store.Awaits queueName msgID subName)
    {name newID payload : GoString} {subList : GoMap SubPolicy} {info : MessageInfo}
    {next : InMemoryStorage}
    (hnext : store.enqueue name newID payload subList = .ok (info, next)) :
    next.Awaits queueName msgID subName := by
  cases enqueued_of_enqueue hnext with
  | known => exact hawaits
  | unwanted => exact hawaits
  | @stored queue hqueue hfresh =>
      have hcounted : InMemoryStorage.Awaits { store with nextSeq := store.nextSeq + 1 }
          queueName msgID subName := hawaits
      refine hcounted.setQueue ?_
      intro hname old hold
      obtain ⟨msg, ⟨found, hfound, hmsg⟩, _⟩ := hawaits
      change store.queues.lookup queueName = some old at hold
      rw [hfound] at hold
      cases hold
      rw [← hname, hqueue] at hfound
      cases hfound
      have hid : msgID ≠ newID := by
        rintro rfl
        rw [hfresh] at hmsg
        contradiction
      rw [GoMap.lookup_insert_eq, if_neg hid]

theorem Awaits.applyCommand (hawaits : store.Awaits queueName msgID subName)
    (hkept : ¬ cmd.deletes queueName)
    (hunacked : cmd.acks queueName msgID → subName ∉ cmd.subNames) (index : UInt64) :
    (FSM.applyCommand index store cmd).2.Awaits queueName msgID subName := by
  have happlied := FSM.applied_applyCommand index store cmd
  generalize (FSM.applyCommand index store cmd).2 = next at happlied ⊢
  -- A queue that is stored back with other policies holds what it held.
  have hedited : ∀ {queue : QueueState} {subs : GoMap SubPolicy},
      store.queues.lookup cmd.queueName = some queue →
      (store.setQueue cmd.queueName { queue with subs }).Awaits queueName msgID subName := by
    intro queue subs hqueue
    refine hawaits.setQueue ?_
    rintro rfl old hold
    rw [hqueue] at hold
    cases hold
    rfl
  cases happlied with
  | refused => exact hawaits
  | createdQueue htype hnext =>
      obtain ⟨habsent, rfl⟩ := createQueue_eq_ok hnext
      refine hawaits.setQueue ?_
      rintro rfl old hold
      rw [habsent] at hold
      contradiction
  | deletedQueue htype hnext =>
      obtain rfl := deleteQueue_eq_ok hnext
      obtain ⟨msg, ⟨found, hfound, hmsg⟩, hrest⟩ := hawaits
      have hother : queueName ≠ cmd.queueName := fun hname => hkept ⟨htype, hname.symm⟩
      refine ⟨msg, ⟨found, ?_, hmsg⟩, hrest⟩
      exact (GoMap.lookup_erase_eq _ _ _).trans ((if_neg hother).trans hfound)
  | putPolicy htype hnext =>
      obtain ⟨queue, hqueue, rfl⟩ := putSubPolicy_eq_ok hnext
      exact hedited hqueue
  | deletedPolicy htype hnext =>
      obtain ⟨queue, hqueue, rfl⟩ := deleteSubPolicy_eq_ok hnext
      exact hedited hqueue
  | acked htype => exact hawaits.ack fun hname hid => hunacked ⟨htype, hname, hid⟩
  | enqueued htype hnext => exact hawaits.enqueue hnext

theorem Awaits.applyLog (hawaits : store.Awaits queueName msgID subName)
    {log : List Committed} (hkept : ∀ entry ∈ log, ¬ entry.cmd.deletes queueName)
    (hunacked : ∀ entry ∈ log, entry.cmd.acks queueName msgID →
      subName ∉ entry.cmd.subNames) :
    (FSM.applyLog store log).Awaits queueName msgID subName := by
  induction log generalizing store with
  | nil => exact hawaits
  | cons entry log ih =>
      rw [List.forall_mem_cons] at hkept hunacked
      exact ih (hawaits.applyCommand hkept.1 hunacked.1 entry.index) hkept.2 hunacked.2

def accepts (store : InMemoryStorage) (cmd : Command) : Bool :=
  match store.queues.lookup cmd.queueName with
  | none => false
  | some queue => (queue.messages.lookup cmd.msgID).isNone

theorem awaits_of_accepts (henqueue : cmd.type = .enqueue)
    (haccepts : store.accepts cmd = true) (hsub : subName ∈ cmd.subList.keys)
    (index : UInt64) :
    (FSM.applyCommand index store cmd).2.Awaits cmd.queueName cmd.msgID subName := by
  unfold accepts at haccepts
  simp only [FSM.applyCommand, henqueue, InMemoryStorage.enqueue]
  cases hqueue : store.queues.lookup cmd.queueName with
  | none =>
      rw [hqueue] at haccepts
      contradiction
  | some queue =>
      rw [hqueue] at haccepts
      have hfresh : queue.messages.lookup cmd.msgID = none := by simpa using haccepts
      have hsubs : 0 < cmd.subList.len := Finset.card_pos.mpr ⟨subName, hsub⟩
      simp only [hfresh, newMessage, hsubs, if_true]
      exact ⟨_, holds_setQueue.mpr (.inl ⟨rfl, Finmap.lookup_insert _⟩),
        Finset.empty_subset _, hsub, Finset.notMem_empty _⟩

theorem Awaits.recognises (hawaits : store.Awaits cmd.queueName cmd.msgID subName) :
    store.recognises cmd = true := by
  obtain ⟨msg, ⟨queue, hqueue, hmsg⟩, _⟩ := hawaits
  simp [InMemoryStorage.recognises, hqueue, hmsg]

end InMemoryStorage

/-- An `Enqueue` applied again at a later point of any log leaves the owed pairs alone
exactly if the store then recognises it.  It does so as long as its queue is not deleted
and one of its subscribers has not acked. -/
theorem reapplied_enqueue_noop_iff (before between : List Committed) {cmd : Command}
    (henqueue : cmd.type = .enqueue) (first second : UInt64) :
    ((FSM.applyLog .empty
        (before ++ ⟨first, cmd⟩ :: between ++ [⟨second, cmd⟩])).owedPairs =
        (FSM.applyLog .empty (before ++ ⟨first, cmd⟩ :: between)).owedPairs ↔
      (FSM.applyLog .empty (before ++ ⟨first, cmd⟩ :: between)).recognises cmd = true) ∧
    ((FSM.applyLog .empty before).accepts cmd = true →
      (∀ entry ∈ between, ¬ entry.cmd.deletes cmd.queueName) →
      (∃ subName ∈ cmd.subList.keys, ∀ entry ∈ between,
        entry.cmd.acks cmd.queueName cmd.msgID → subName ∉ entry.cmd.subNames) →
      (FSM.applyLog .empty (before ++ ⟨first, cmd⟩ :: between)).recognises cmd = true) := by
  constructor
  · rw [FSM.applyLog, List.foldl_append]
    exact InMemoryStorage.owedPairs_enqueue_iff henqueue second
  · rintro haccepts hkept ⟨subName, hsub, hunacked⟩
    have hawaits := InMemoryStorage.awaits_of_accepts henqueue haccepts hsub first
    have hlater := (hawaits.applyLog hkept hunacked).recognises
    rw [FSM.applyLog, List.foldl_append]
    exact hlater

/-- A log whose message is acked by one of its two subscribers. -/
theorem partly_acked_enqueue_noop :
    let subList : GoMap SubPolicy := GoMap.ofList
      [(lit "a", ⟨lit "a", lit "u", 3⟩), (lit "b", ⟨lit "b", lit "v", 3⟩)]
    let cmd := Command.newEnqueue (lit "q") (lit "m") (lit "x") subList
    let before : List Committed := [⟨1, .newCreateQueue (lit "q")⟩]
    let between : List Committed := [⟨3, .newAck (lit "q") (lit "m") [lit "a"]⟩]
    (FSM.applyLog .empty (before ++ ⟨2, cmd⟩ :: between)).recognises cmd = true ∧
      (FSM.applyLog .empty (before ++ ⟨2, cmd⟩ :: between ++ [⟨4, cmd⟩])).owedPairs =
        (FSM.applyLog .empty (before ++ ⟨2, cmd⟩ :: between)).owedPairs := by
  intro subList cmd before between
  have hrecognised :
      (FSM.applyLog .empty (before ++ ⟨2, cmd⟩ :: between)).recognises cmd = true := by
    decide +kernel
  exact ⟨hrecognised, (reapplied_enqueue_noop_iff before between rfl 2 4).1.mpr hrecognised⟩

/-- Once the only subscriber has acked, applying the command again owes the message
once more. -/
theorem settled_enqueue_is_revived :
    let cmd := Command.newEnqueue (lit "q") (lit "m") (lit "x")
      (GoMap.ofList [(lit "a", ⟨lit "a", lit "u", 3⟩)])
    let before : List Committed := [⟨1, .newCreateQueue (lit "q")⟩]
    let between : List Committed := [⟨3, .newAck (lit "q") (lit "m") [lit "a"]⟩]
    (∀ entry ∈ between, ¬ entry.cmd.deletes cmd.queueName) ∧
      (FSM.applyLog .empty before).accepts cmd = true ∧
      (FSM.applyLog .empty (before ++ ⟨2, cmd⟩ :: between ++ [⟨4, cmd⟩])).owedPairs ≠
        (FSM.applyLog .empty (before ++ ⟨2, cmd⟩ :: between)).owedPairs := by
  intro cmd before between
  have hforgotten :
      (FSM.applyLog .empty (before ++ ⟨2, cmd⟩ :: between)).recognises cmd = false := by
    decide +kernel
  refine ⟨by decide +kernel, by decide +kernel, fun hsame => ?_⟩
  rw [FSM.applyLog, List.foldl_append] at hsame
  have hrecognised := (InMemoryStorage.owedPairs_enqueue_iff rfl 4).mp hsame
  change (FSM.applyLog .empty (before ++ ⟨2, cmd⟩ :: between)).recognises cmd = true
    at hrecognised
  rw [hforgotten] at hrecognised
  contradiction

end SimonMQ.Dist
