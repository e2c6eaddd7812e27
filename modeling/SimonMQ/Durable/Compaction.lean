import SimonMQ.Durable.Ledger

namespace SimonMQ.Durable

open SimonMQ.Go

/-! Compaction: five maps that follow the log, and the records that rebuild their
content. -/

structure CompactionState where
  /-- by queue name -/
  createdQueues : GoMap Record := ∅
  /-- by queue and subscriber name -/
  createdSubs : GoMap (GoMap Record) := ∅
  /-- by message id -/
  inFlightMessages : GoMap Record := ∅
  /-- by message id: the subscribers left -/
  remainingSubs : GoMap (Finset GoString) := ∅
  /-- by message id and subscriber name -/
  inFlightAcks : GoMap (GoMap Record) := ∅

/-- The order in which each range loop of `compacted` walks its map. -/
structure CompactionOrder where
  queues : GoMap.Order Record
  queueSubs : GoMap.Order (GoMap Record)
  subs : GoMap.Order Record
  messages : GoMap.Order Record
  messageAcks : GoMap.Order (GoMap Record)
  acks : GoMap.Order Record

def keyOrder : CompactionOrder := ⟨.sorted, .sorted, .sorted, .sorted, .sorted, .sorted⟩

def snapshotNames (subList : GoMap SubPolicy) : Finset GoString :=
  (subList.entries.map fun entry => entry.2.subName).toFinset

namespace CompactionState

/-- The loop of `applyDeleteQueue` passes the message id by. -/
def outlives (s : CompactionState) (queueName msgId : GoString) : Bool :=
  match s.inFlightMessages.lookup msgId with
  | some enqRec => enqRec.queueName ≠ queueName
  | none => true

def applyDeleteQueue (s : CompactionState) (rec : Record) : CompactionState where
  createdQueues := s.createdQueues.erase rec.queueName
  createdSubs := s.createdSubs.erase rec.queueName
  inFlightMessages := s.inFlightMessages.retain fun msgId _ => s.outlives rec.queueName msgId
  remainingSubs := s.remainingSubs.retain fun msgId _ => s.outlives rec.queueName msgId
  inFlightAcks := s.inFlightAcks.retain fun msgId _ => s.outlives rec.queueName msgId

def applyEnqueue (s : CompactionState) (rec : Record) : CompactionState :=
  match s.createdQueues.lookup rec.queueName, decodeEnqueue rec.payload with
  | some _, some enq =>
      if enq.subList.len = 0 then s
      else
        { s with
          inFlightMessages := s.inFlightMessages.insert enq.msgId rec
          remainingSubs := s.remainingSubs.insert enq.msgId (snapshotNames enq.subList) }
  | _, _ => s

def acksOf (s : CompactionState) (msgId : GoString) : GoMap Record :=
  (s.inFlightAcks.lookup msgId).getD ∅

def applyAck (s : CompactionState) (rec : Record) : CompactionState :=
  match decodeAck rec.payload with
  | none => s
  | some ack =>
      let acks := (s.acksOf ack.msgId).insert ack.subName rec
      match s.remainingSubs.lookup ack.msgId with
      | some remaining =>
          let remaining := remaining.erase ack.subName
          if remaining.card = 0 then
            { s with
              remainingSubs := s.remainingSubs.erase ack.msgId
              inFlightMessages := s.inFlightMessages.erase ack.msgId
              inFlightAcks := s.inFlightAcks.erase ack.msgId }
          else
            { s with
              remainingSubs := s.remainingSubs.insert ack.msgId remaining
              inFlightAcks := s.inFlightAcks.insert ack.msgId acks }
      | none =>
          -- The length of a missing set is zero.
          { s with
            inFlightMessages := s.inFlightMessages.erase ack.msgId
            inFlightAcks := s.inFlightAcks.erase ack.msgId }

def applyCreateQueue (s : CompactionState) (rec : Record) : CompactionState :=
  { s with
    createdQueues := s.createdQueues.insert rec.queueName rec
    createdSubs := s.createdSubs.insert rec.queueName ∅ }

/-- The checks that `applyUpdateSubPolicy` and `applyDeleteSubPolicy` share. -/
def editSubs (s : CompactionState) (rec : Record)
    (edit : GoString → GoMap Record → GoMap Record) : CompactionState :=
  match decodeSubPolicy rec.payload, s.createdSubs.lookup rec.queueName with
  | some policy, some subs =>
      { s with createdSubs := s.createdSubs.insert rec.queueName (edit policy.subName subs) }
  | _, _ => s

def applyUpdateSubPolicy (s : CompactionState) (rec : Record) : CompactionState :=
  s.editSubs rec fun subName subs => subs.insert subName rec

def applyDeleteSubPolicy (s : CompactionState) (rec : Record) : CompactionState :=
  s.editSubs rec fun subName subs => subs.erase subName

/-- One turn of the loop in `CompactRecords`. -/
def apply (s : CompactionState) (rec : Record) : CompactionState :=
  match rec.opType with
  | .enqueue => s.applyEnqueue rec
  | .ack => s.applyAck rec
  | .createQueue => s.applyCreateQueue rec
  | .deleteQueue => s.applyDeleteQueue rec
  | .updateSubPolicy => s.applyUpdateSubPolicy rec
  | .deleteSubPolicy => s.applyDeleteSubPolicy rec
  | _ => s

def compacted (s : CompactionState) (order : CompactionOrder) : List Record :=
  (order.queues.walk s.createdQueues).map Prod.snd ++
  ((order.queueSubs.walk s.createdSubs).flatMap fun entry =>
    (order.subs.walk entry.2).map Prod.snd) ++
  (order.messages.walk s.inFlightMessages).map Prod.snd ++
  ((order.messageAcks.walk s.inFlightAcks).flatMap fun entry =>
    (order.acks.walk entry.2).map Prod.snd)

end CompactionState

def compactRecords (order : CompactionOrder) (records : List Record) : List Record :=
  (records.foldl CompactionState.apply {}).compacted order

theorem mem_snapshotNames {subList : GoMap SubPolicy} {name : GoString} :
    name ∈ snapshotNames subList ↔
      ∃ key policy, subList.lookup key = some policy ∧ policy.subName = name := by
  simp only [snapshotNames, Multiset.mem_toFinset, Multiset.mem_map]
  constructor
  · rintro ⟨⟨key, policy⟩, hmem, hname⟩
    exact ⟨key, policy, Finmap.mem_lookup_iff.mpr hmem, hname⟩
  · rintro ⟨key, policy, hlookup, hname⟩
    exact ⟨⟨key, policy⟩, Finmap.mem_lookup_iff.mp hlookup, hname⟩

theorem snapshotNames_of_keyed {subList : GoMap SubPolicy} (hkeyed : KeyedByName subList) :
    snapshotNames subList = subList.keys := by
  ext name
  rw [mem_snapshotNames, Finmap.mem_keys, Finmap.mem_iff]
  constructor
  · rintro ⟨key, policy, hlookup, rfl⟩
    rw [hkeyed key policy hlookup]
    exact ⟨policy, hlookup⟩
  · rintro ⟨policy, hlookup⟩
    exact ⟨name, policy, hlookup, hkeyed name policy hlookup⟩

/-- The maps hold the ledger's content as the records that produced it. -/
structure CompactionState.Represents (s : CompactionState) (ledger : Ledger) : Prop where
  queues : ∀ queue, Option.Rel (fun rec _ => rec.effect = some (.create queue))
    (s.createdQueues.lookup queue) (ledger.catalog.lookup queue)
  subs : ∀ queue, Option.Rel
    (fun subs policies => ∀ name, Option.Rel
      (fun rec policy => rec.effect = some (.subscribe queue policy) ∧
        policy.subName = name)
      (subs.lookup name) (policies.lookup name))
    (s.createdSubs.lookup queue) (ledger.catalog.lookup queue)
  messages : ∀ msgId, Option.Rel
    (fun rec msg => rec.effect = some (.accept msg.queue msgId msg.content msg.subList) ∧
      KeyedByName msg.subList)
    (s.inFlightMessages.lookup msgId) (ledger.pending.lookup msgId)
  remaining : ∀ msgId, Option.Rel (fun left msg => left = msg.subList.keys \ msg.acked)
    (s.remainingSubs.lookup msgId) (ledger.pending.lookup msgId)
  acks : ∀ msgId msg, ledger.pending.lookup msgId = some msg → ∀ subName,
    (subName ∈ msg.acked ↔ ∃ rec, (s.acksOf msgId).lookup subName = some rec) ∧
    ∀ rec, (s.acksOf msgId).lookup subName = some rec →
      rec.effect = some (.settle msg.queue msgId subName) ∧ subName ∈ msg.subList.keys
  stray : ∀ msgId, ledger.pending.lookup msgId = none →
    s.inFlightAcks.lookup msgId = none

namespace CompactionState

theorem represents_empty : Represents {} {} where
  queues := fun _ => .none
  subs := fun _ => .none
  messages := fun _ => .none
  remaining := fun _ => .none
  acks := by simp
  stray := by simp

section

variable {s : CompactionState} {ledger : Ledger}

theorem Represents.create (hrep : s.Represents ledger) {rec : Record}
    (heffect : rec.effect = some (.create rec.queueName)) :
    (s.applyCreateQueue rec).Represents (ledger.apply (.create rec.queueName)) where
  queues := by
    intro queue
    simp only [applyCreateQueue, Ledger.apply, GoMap.lookup_insert_eq]
    split_ifs with hqueue
    · exact .some (by rw [heffect, hqueue])
    · exact hrep.queues queue
  subs := by
    intro queue
    simp only [applyCreateQueue, Ledger.apply, GoMap.lookup_insert_eq]
    split_ifs with hqueue
    · exact .some fun name => .none
    · exact hrep.subs queue
  messages := hrep.messages
  remaining := hrep.remaining
  acks := hrep.acks
  stray := hrep.stray

theorem Represents.outlives (hrep : s.Represents ledger) {msgId : GoString} {msg : Pending}
    (hmsg : ledger.pending.lookup msgId = some msg) (queue : GoString) :
    s.outlives queue msgId = decide (msg.queue ≠ queue) := by
  have hrel := hrep.messages msgId
  rw [hmsg] at hrel
  unfold CompactionState.outlives
  generalize s.inFlightMessages.lookup msgId = found at hrel ⊢
  cases hrel with
  | some hrec => simp only [(accepted_of_effect hrec.1).1]

theorem Represents.delete (hrep : s.Represents ledger) (rec : Record) :
    (s.applyDeleteQueue rec).Represents (ledger.apply (.delete rec.queueName)) := by
  have hpending : ∀ msgId, (ledger.apply (.delete rec.queueName)).pending.lookup msgId =
      if s.outlives rec.queueName msgId then ledger.pending.lookup msgId else none := by
    intro msgId
    rw [Ledger.apply, GoMap.lookup_retain]
    cases hmsg : ledger.pending.lookup msgId with
    | none => simp
    | some msg =>
        rw [hrep.outlives hmsg]
        by_cases hqueue : msg.queue = rec.queueName <;> simp [hqueue, Option.filter]
  constructor
  · intro queue
    simp only [applyDeleteQueue, Ledger.apply, GoMap.lookup_erase_eq]
    split_ifs
    · exact .none
    · exact hrep.queues queue
  · intro queue
    simp only [applyDeleteQueue, Ledger.apply, GoMap.lookup_erase_eq]
    split_ifs
    · exact .none
    · exact hrep.subs queue
  · intro msgId
    rw [hpending, applyDeleteQueue, GoMap.lookup_retain_key]
    split_ifs
    · exact hrep.messages msgId
    · exact .none
  · intro msgId
    rw [hpending, applyDeleteQueue, GoMap.lookup_retain_key]
    split_ifs
    · exact hrep.remaining msgId
    · exact .none
  · intro msgId msg hmsg
    rw [hpending] at hmsg
    split_ifs at hmsg with houtlives
    have hacks : (s.applyDeleteQueue rec).acksOf msgId = s.acksOf msgId := by
      rw [acksOf, acksOf, applyDeleteQueue, GoMap.lookup_retain_key, if_pos houtlives]
    rw [hacks]
    exact hrep.acks msgId msg hmsg
  · intro msgId hnone
    rw [hpending] at hnone
    rw [applyDeleteQueue, GoMap.lookup_retain_key]
    split_ifs at hnone ⊢
    · exact hrep.stray msgId hnone
    · rfl

theorem Represents.editSubs (hrep : s.Represents ledger) {rec : Record} {policy : SubPolicy}
    (hdecode : decodeSubPolicy rec.payload = some policy)
    (editSubs : GoString → GoMap Record → GoMap Record)
    (editPolicies : GoMap SubPolicy → GoMap SubPolicy)
    (hedit : ∀ subs policies,
      (∀ name, Option.Rel
        (fun other found => other.effect = some (.subscribe rec.queueName found) ∧
          found.subName = name) (subs.lookup name) (policies.lookup name)) →
      ∀ name, Option.Rel
        (fun other found => other.effect = some (.subscribe rec.queueName found) ∧
          found.subName = name) ((editSubs policy.subName subs).lookup name)
          ((editPolicies policies).lookup name)) :
    (s.editSubs rec editSubs).Represents
      (ledger.editPolicies rec.queueName editPolicies) := by
  have hrel := hrep.subs rec.queueName
  unfold CompactionState.editSubs Ledger.editPolicies
  rw [hdecode]
  cases hsubs : s.createdSubs.lookup rec.queueName with
  | none =>
      rw [hsubs] at hrel
      cases hpolicies : ledger.catalog.lookup rec.queueName with
      | none => exact hrep
      | some policies =>
          rw [hpolicies] at hrel
          cases hrel
  | some subs =>
      cases hpolicies : ledger.catalog.lookup rec.queueName with
      | none =>
          rw [hsubs, hpolicies] at hrel
          cases hrel
      | some policies =>
          rw [hsubs, hpolicies] at hrel
          cases hrel with
          | some hrel =>
              refine { hrep with queues := ?_, subs := ?_ }
              · intro queue
                have hqueue := hrep.queues queue
                simp only [GoMap.lookup_insert_eq]
                split_ifs with heq
                · subst heq
                  rw [hpolicies] at hqueue
                  generalize s.createdQueues.lookup rec.queueName = found at hqueue ⊢
                  cases hqueue with
                  | some hcreate => exact .some hcreate
                · exact hqueue
              · intro queue
                simp only [GoMap.lookup_insert_eq]
                split_ifs with heq
                · subst heq
                  exact .some (hedit subs policies hrel)
                · exact hrep.subs queue

theorem Represents.accept (hrep : s.Represents ledger) {rec : Record} {enq : Enqueue}
    (hdecode : decodeEnqueue rec.payload = some enq)
    (heffect : rec.effect =
      some (.accept rec.queueName enq.msgId enq.msgContent enq.subList))
    (hadmits : ledger.Admits
      (.accept rec.queueName enq.msgId enq.msgContent enq.subList)) :
    (s.applyEnqueue rec).Represents
      (ledger.apply (.accept rec.queueName enq.msgId enq.msgContent enq.subList)) := by
  obtain ⟨hqueue, hfresh, hkeyed⟩ := hadmits
  obtain ⟨policies, hpolicies⟩ := Ledger.mem_catalog_iff.mp hqueue
  obtain ⟨created, hcreated⟩ :
      ∃ created, s.createdQueues.lookup rec.queueName = some created := by
    have hrel := hrep.queues rec.queueName
    rw [hpolicies] at hrel
    generalize s.createdQueues.lookup rec.queueName = found at hrel ⊢
    cases hrel with
    | some hrec => exact ⟨_, rfl⟩
  simp only [applyEnqueue, hcreated, hdecode, GoMap.len, Finset.card_eq_zero, Ledger.apply]
  split_ifs with hempty
  · exact hrep
  · have hnoAcks : s.acksOf enq.msgId = ∅ := by
      rw [acksOf, hrep.stray enq.msgId hfresh]
      rfl
    refine ⟨hrep.queues, hrep.subs, ?_, ?_, ?_, ?_⟩
    · intro msgId
      simp only [GoMap.lookup_insert_eq]
      split_ifs with hid
      · subst hid
        exact .some ⟨heffect, hkeyed⟩
      · exact hrep.messages msgId
    · intro msgId
      simp only [GoMap.lookup_insert_eq]
      split_ifs with hid
      · exact .some (by simp [snapshotNames_of_keyed hkeyed])
      · exact hrep.remaining msgId
    · intro msgId msg hmsg subName
      rw [GoMap.lookup_insert_eq] at hmsg
      split_ifs at hmsg with hid
      · cases hmsg
        subst hid
        have hnone : (s.acksOf enq.msgId).lookup subName = none := by
          rw [hnoAcks]
          exact Finmap.lookup_empty subName
        simp only [acksOf] at hnone ⊢
        simp [hnone]
      · exact hrep.acks msgId msg hmsg subName
    · intro msgId hnone
      rw [GoMap.lookup_insert_eq] at hnone
      split_ifs at hnone with hid
      exact hrep.stray msgId hnone

theorem Represents.settle (hrep : s.Represents ledger) {rec : Record} {ack : Ack}
    (hdecode : decodeAck rec.payload = some ack)
    (heffect : rec.effect = some (.settle rec.queueName ack.msgId ack.subName))
    (hadmits : ledger.Admits (.settle rec.queueName ack.msgId ack.subName)) :
    (s.applyAck rec).Represents (ledger.settle ack.msgId ack.subName) := by
  obtain ⟨msg, hpending, hqueue, hsub, hunacked⟩ := hadmits
  have hleft : s.remainingSubs.lookup ack.msgId = some (msg.subList.keys \ msg.acked) := by
    have hrel := hrep.remaining ack.msgId
    rw [hpending] at hrel
    generalize s.remainingSubs.lookup ack.msgId = found at hrel ⊢
    cases hrel with
    | some hrec => rw [hrec]
  have herase : (msg.subList.keys \ msg.acked).erase ack.subName =
      msg.subList.keys \ insert ack.subName msg.acked := by
    ext name
    simp only [Finset.mem_erase, Finset.mem_sdiff, Finset.mem_insert, not_or]
    tauto
  simp only [applyAck, hdecode, hleft, herase, Finset.card_eq_zero,
    Finset.sdiff_eq_empty_iff_subset, Ledger.settle, hpending]
  split_ifs with hall
  · refine ⟨hrep.queues, hrep.subs, ?_, ?_, ?_, ?_⟩
    · intro msgId
      simp only [GoMap.lookup_erase_eq]
      split_ifs
      · exact .none
      · exact hrep.messages msgId
    · intro msgId
      simp only [GoMap.lookup_erase_eq]
      split_ifs
      · exact .none
      · exact hrep.remaining msgId
    · intro msgId other hother
      rw [GoMap.lookup_erase_eq] at hother
      split_ifs at hother with hid
      have hacks := hrep.acks msgId other hother
      simp only [acksOf, GoMap.lookup_erase_eq, if_neg hid] at hacks ⊢
      exact hacks
    · intro msgId hnone
      rw [GoMap.lookup_erase_eq] at hnone ⊢
      split_ifs at hnone ⊢
      · rfl
      · exact hrep.stray msgId hnone
  · refine ⟨hrep.queues, hrep.subs, ?_, ?_, ?_, ?_⟩
    · intro msgId
      have hrel := hrep.messages msgId
      simp only [GoMap.lookup_insert_eq]
      split_ifs with hid
      · subst hid
        rw [hpending] at hrel
        generalize s.inFlightMessages.lookup ack.msgId = found at hrel ⊢
        cases hrel with
        | some hrec => exact .some hrec
      · exact hrel
    · intro msgId
      simp only [GoMap.lookup_insert_eq]
      split_ifs with hid
      · exact .some rfl
      · exact hrep.remaining msgId
    · intro msgId other hother subName
      rw [GoMap.lookup_insert_eq] at hother
      split_ifs at hother with hid
      · cases hother
        subst hid
        obtain ⟨hmem, hrecs⟩ := hrep.acks ack.msgId msg hpending subName
        simp only [acksOf, GoMap.lookup_insert_eq, if_true, Option.getD_some,
          Finset.mem_insert] at hmem hrecs ⊢
        by_cases hname : subName = ack.subName
        · subst hname
          simp only [true_or, if_true, Option.some.injEq, exists_eq', true_and]
          rintro found rfl
          exact ⟨by rw [heffect, hqueue], hsub⟩
        · simp only [hname, false_or, if_false]
          exact ⟨hmem, hrecs⟩
      · have hacks := hrep.acks msgId other hother subName
        simp only [acksOf, GoMap.lookup_insert_eq, if_neg hid] at hacks ⊢
        exact hacks
    · intro msgId hnone
      rw [GoMap.lookup_insert_eq] at hnone ⊢
      split_ifs at hnone ⊢
      exact hrep.stray msgId hnone

theorem Represents.apply (hrep : s.Represents ledger) {rec : Record} {effect : Effect}
    (heffect : rec.effect = some effect) (hadmits : ledger.Admits effect) :
    (s.apply rec).Represents (ledger.apply effect) := by
  have hown := heffect
  cases hop : rec.opType with
  | enqueue =>
      simp only [Record.effect, hop, Option.map_eq_some_iff] at heffect
      obtain ⟨enq, hdecode, rfl⟩ := heffect
      simp only [CompactionState.apply, hop]
      exact hrep.accept hdecode hown hadmits
  | ack =>
      simp only [Record.effect, hop, Option.map_eq_some_iff] at heffect
      obtain ⟨ack, hdecode, rfl⟩ := heffect
      simp only [CompactionState.apply, hop]
      exact hrep.settle hdecode hown hadmits
  | createQueue =>
      simp only [Record.effect, hop, Option.some.injEq] at heffect
      subst heffect
      simp only [CompactionState.apply, hop]
      exact hrep.create hown
  | deleteQueue =>
      simp only [Record.effect, hop, Option.some.injEq] at heffect
      subst heffect
      simp only [CompactionState.apply, hop]
      exact hrep.delete rec
  | updateSubPolicy =>
      simp only [Record.effect, hop, Option.map_eq_some_iff] at heffect
      obtain ⟨policy, hdecode, rfl⟩ := heffect
      simp only [CompactionState.apply, hop]
      refine hrep.editSubs hdecode _ _ fun subs policies hsubs name => ?_
      simp only [GoMap.lookup_insert_eq]
      split_ifs with hname
      · exact .some ⟨hown, hname.symm⟩
      · exact hsubs name
  | deleteSubPolicy =>
      simp only [Record.effect, hop, Option.map_eq_some_iff] at heffect
      obtain ⟨policy, hdecode, rfl⟩ := heffect
      simp only [CompactionState.apply, hop]
      refine hrep.editSubs hdecode _ _ fun subs policies hsubs name => ?_
      simp only [GoMap.lookup_erase_eq]
      split_ifs
      · exact .none
      · exact hsubs name
  | beginCheckpoint =>
      simp only [Record.effect, hop, Option.some.injEq] at heffect
      subst heffect
      simp only [CompactionState.apply, hop]
      exact hrep
  | endCheckpoint =>
      simp only [Record.effect, hop, Option.some.injEq] at heffect
      subst heffect
      simp only [CompactionState.apply, hop]
      exact hrep
  | other code hcode => simp [Record.effect, hop] at heffect

theorem Represents.applyAll (hrep : s.Represents ledger) {records : List Record}
    (hadmits : ledger.AdmitsAll records) :
    (records.foldl CompactionState.apply s).Represents (ledger.followAll records) := by
  induction records generalizing s ledger with
  | nil => exact hrep
  | cons rec records ih =>
      obtain ⟨⟨effect, heffect, hrec⟩, hrest⟩ := hadmits
      have hnext := hrep.apply heffect hrec
      rw [← Ledger.follow_of_effect heffect] at hnext
      exact ih hnext hrest

end

/-! The records that `compacted` returns rebuild the ledger: first the queues, then
their policies, then the messages, then the acks. -/

theorem follow_creates (ledger : Ledger) {entries : List (GoString × Record)}
    {queues : List (GoString × GoMap SubPolicy)}
    (hpairs : List.Forall₂ (fun entry found => entry.1 = found.1 ∧
      entry.2.effect = some (.create entry.1)) entries queues) :
    ledger.AdmitsAll (entries.map Prod.snd) ∧
      ledger.followAll (entries.map Prod.snd) =
        { ledger with
          catalog := GoMap.ofList (queues.map fun found => (found.1, ∅)) ledger.catalog } := by
  induction hpairs generalizing ledger with
  | nil => exact ⟨trivial, rfl⟩
  | @cons entry found entries queues hpair _ ih =>
      obtain ⟨hadmits, hfollow⟩ := ih (ledger.apply (.create entry.1))
      rw [← Ledger.follow_of_effect hpair.2] at hadmits hfollow
      refine ⟨⟨⟨_, hpair.2, trivial⟩, hadmits⟩, ?_⟩
      rw [List.map_cons, Ledger.followAll_cons, hfollow, Ledger.follow_of_effect hpair.2,
        List.map_cons, GoMap.ofList_cons, hpair.1]
      rfl

theorem follow_subscribes {queue : GoString} {entries : List (GoString × Record)}
    {policies : List (GoString × SubPolicy)}
    (hpairs : List.Forall₂ (fun entry found => entry.1 = found.1 ∧
      entry.2.effect = some (.subscribe queue found.2) ∧ found.2.subName = entry.1)
        entries policies) {ledger : Ledger} {known : GoMap SubPolicy}
    (hknown : ledger.catalog.lookup queue = some known) :
    ledger.AdmitsAll (entries.map Prod.snd) ∧
      ledger.followAll (entries.map Prod.snd) =
        { ledger with
          catalog := ledger.catalog.insert queue (GoMap.ofList policies known) } := by
  induction hpairs generalizing ledger known with
  | nil =>
      refine ⟨trivial, ?_⟩
      have hsame : ledger.catalog.insert queue known = ledger.catalog := by
        apply Finmap.ext_lookup
        intro other
        rw [GoMap.lookup_insert_eq]
        split_ifs with hother
        · rw [hother, hknown]
        · rfl
      simp only [List.map_nil, Ledger.followAll_nil, GoMap.ofList_nil, hsame]
  | @cons entry found entries policies hpair _ ih =>
      obtain ⟨hkey, heffect, hname⟩ := hpair
      have hnext : ledger.apply (.subscribe queue found.2) =
          ⟨ledger.catalog.insert queue (known.insert found.2.subName found.2),
            ledger.pending⟩ := by
        simp only [Ledger.apply, Ledger.editPolicies, hknown]
      obtain ⟨hadmits, hfollow⟩ := @ih (ledger.apply (.subscribe queue found.2))
        (known.insert found.2.subName found.2) (by simp [hnext])
      rw [← Ledger.follow_of_effect heffect] at hadmits hfollow
      have hcreated := Ledger.mem_catalog_iff.mpr ⟨known, hknown⟩
      refine ⟨⟨⟨_, heffect, hcreated⟩, hadmits⟩, ?_⟩
      rw [List.map_cons, Ledger.followAll_cons, hfollow, Ledger.follow_of_effect heffect,
        hnext, GoMap.ofList_cons, hname, hkey]
      simp only [Finmap.insert_insert]

theorem follow_policies (order : CompactionOrder) {groups : List (GoString × GoMap Record)}
    {queues : List (GoString × GoMap SubPolicy)}
    (hpairs : List.Forall₂ (fun group found => group.1 = found.1 ∧
      ∀ name, Option.Rel (fun rec policy =>
        rec.effect = some (.subscribe group.1 policy) ∧ policy.subName = name)
        (group.2.lookup name) (found.2.lookup name)) groups queues)
    (hnodup : (queues.map Prod.fst).Nodup) {ledger : Ledger}
    (hbare : ∀ found ∈ queues, ledger.catalog.lookup found.1 = some ∅) :
    ledger.AdmitsAll (groups.flatMap fun group =>
        (order.subs.walk group.2).map Prod.snd) ∧
      ledger.followAll (groups.flatMap fun group =>
        (order.subs.walk group.2).map Prod.snd) =
        { ledger with catalog := GoMap.ofList queues ledger.catalog } := by
  induction hpairs generalizing ledger with
  | nil => exact ⟨trivial, rfl⟩
  | @cons group found groups queues hpair _ ih =>
      rw [List.map_cons, List.nodup_cons] at hnodup
      obtain ⟨policies, henum, hpolicies⟩ :=
        (order.subs.enumerates group.2).transfer hpair.2
      have hhead : ledger.catalog.lookup group.1 = some ∅ := by
        rw [hpair.1]
        exact hbare found List.mem_cons_self
      obtain ⟨hadmits, hfollow⟩ := follow_subscribes hpolicies hhead
      rw [GoMap.ofList_of_enumerates henum, hpair.1] at hfollow
      obtain ⟨hadmitsRest, hfollowRest⟩ := @ih hnodup.2
        { ledger with catalog := ledger.catalog.insert found.1 found.2 } (by
          intro other hother
          have hne : other.1 ≠ found.1 := by
            intro heq
            rw [← heq] at hnodup
            exact hnodup.1 (List.mem_map_of_mem (f := Prod.fst) hother)
          rw [GoMap.lookup_insert_eq, if_neg hne]
          exact hbare other (List.mem_cons_of_mem _ hother))
      rw [List.flatMap_cons, Ledger.admitsAll_append, Ledger.followAll_append, hfollow]
      exact ⟨⟨hadmits, hadmitsRest⟩, hfollowRest⟩

theorem follow_accepts {entries : List (GoString × Record)}
    {messages : List (GoString × Pending)}
    (hpairs : List.Forall₂ (fun entry found => entry.1 = found.1 ∧
      entry.2.effect = some (.accept found.2.queue entry.1 found.2.content found.2.subList) ∧
        KeyedByName found.2.subList) entries messages)
    (hnodup : (messages.map Prod.fst).Nodup) {ledger : Ledger}
    (hqueues : ∀ found ∈ messages, found.2.queue ∈ ledger.catalog)
    (hwaiting : ∀ found ∈ messages, ¬ found.2.subList.keys ⊆ found.2.acked)
    (hfresh : ∀ found ∈ messages, ledger.pending.lookup found.1 = none) :
    ledger.AdmitsAll (entries.map Prod.snd) ∧
      ledger.followAll (entries.map Prod.snd) =
        ⟨ledger.catalog, GoMap.ofList
          (messages.map fun found => (found.1, found.2.unacked)) ledger.pending⟩ := by
  induction hpairs generalizing ledger with
  | nil => exact ⟨trivial, rfl⟩
  | @cons entry found entries messages hpair _ ih =>
      obtain ⟨hid, heffect, hkeyed⟩ := hpair
      rw [List.map_cons, List.nodup_cons] at hnodup
      have hsubs : found.2.subList.keys ≠ ∅ := by
        intro hempty
        exact hwaiting found List.mem_cons_self (by simp [hempty])
      have hnext : ledger.follow entry.2 =
          ⟨ledger.catalog, ledger.pending.insert found.1 found.2.unacked⟩ := by
        rw [Ledger.follow_of_effect heffect, Ledger.apply, if_neg hsubs, hid]
        rfl
      have hhead : ledger.Admits
          (.accept found.2.queue entry.1 found.2.content found.2.subList) := by
        refine ⟨hqueues found List.mem_cons_self, ?_, hkeyed⟩
        rw [hid]
        exact hfresh found List.mem_cons_self
      obtain ⟨hadmits, hfollow⟩ := @ih hnodup.2 (ledger.follow entry.2)
        (fun other hother => by
          rw [hnext]
          exact hqueues other (List.mem_cons_of_mem _ hother))
        (fun other hother => hwaiting other (List.mem_cons_of_mem _ hother))
        (fun other hother => by
          have hne : other.1 ≠ found.1 := by
            intro heq
            rw [← heq] at hnodup
            exact hnodup.1 (List.mem_map_of_mem (f := Prod.fst) hother)
          rw [hnext, GoMap.lookup_insert_eq, if_neg hne]
          exact hfresh other (List.mem_cons_of_mem _ hother))
      refine ⟨⟨⟨_, heffect, hhead⟩, hadmits⟩, ?_⟩
      rw [List.map_cons, Ledger.followAll_cons, hfollow, hnext, List.map_cons,
        GoMap.ofList_cons]

theorem follow_settles {msgId : GoString} {msg : Pending} {entries : List (GoString × Record)}
    (hnodup : (entries.map Prod.fst).Nodup)
    (heffects : ∀ entry ∈ entries,
      entry.2.effect = some (.settle msg.queue msgId entry.1) ∧ entry.1 ∈ msg.subList.keys)
    {acked : Finset GoString} (hnew : ∀ entry ∈ entries, entry.1 ∉ acked)
    (hwaiting : ¬ msg.subList.keys ⊆ acked ∪ (entries.map Prod.fst).toFinset)
    {ledger : Ledger} (hpending : ledger.pending.lookup msgId = some { msg with acked }) :
    ledger.AdmitsAll (entries.map Prod.snd) ∧
      ledger.followAll (entries.map Prod.snd) =
        ⟨ledger.catalog, ledger.pending.insert msgId
          { msg with acked := acked ∪ (entries.map Prod.fst).toFinset }⟩ := by
  induction entries generalizing ledger acked with
  | nil =>
      refine ⟨trivial, ?_⟩
      have hsame : ledger.pending.insert msgId { msg with acked } = ledger.pending := by
        apply Finmap.ext_lookup
        intro other
        rw [GoMap.lookup_insert_eq]
        split_ifs with hother
        · rw [hother, hpending]
        · rfl
      simp [hsame]
  | cons entry entries ih =>
      rw [List.map_cons, List.nodup_cons] at hnodup
      obtain ⟨heffect, hsub⟩ := heffects entry List.mem_cons_self
      have hunion : insert entry.1 acked ∪ (entries.map Prod.fst).toFinset =
          acked ∪ ((entry :: entries).map Prod.fst).toFinset := by
        rw [List.map_cons, List.toFinset_cons, Finset.insert_union, Finset.union_insert]
      have hincomplete : ¬ msg.subList.keys ⊆ insert entry.1 acked := by
        intro hall
        apply hwaiting
        rw [← hunion]
        exact hall.trans Finset.subset_union_left
      have hnext : ledger.follow entry.2 =
          ⟨ledger.catalog, ledger.pending.insert msgId
            { msg with acked := insert entry.1 acked }⟩ := by
        rw [Ledger.follow_of_effect heffect, Ledger.apply, Ledger.settle, hpending]
        simp only [if_neg hincomplete]
      obtain ⟨hadmits, hfollow⟩ := @ih hnodup.2
        (fun other hother => heffects other (List.mem_cons_of_mem _ hother))
        (insert entry.1 acked)
        (fun other hother => by
          rw [Finset.mem_insert, not_or]
          refine ⟨fun heq => ?_, hnew other (List.mem_cons_of_mem _ hother)⟩
          rw [← heq] at hnodup
          exact hnodup.1 (List.mem_map_of_mem (f := Prod.fst) hother))
        (by rw [hunion]; exact hwaiting) (ledger.follow entry.2)
        (by rw [hnext, GoMap.lookup_insert_eq, if_pos rfl])
      refine ⟨⟨⟨_, heffect, _, hpending, rfl, hsub, hnew entry List.mem_cons_self⟩,
        hadmits⟩, ?_⟩
      rw [List.map_cons, Ledger.followAll_cons, hfollow, hnext, hunion]
      simp only [Finmap.insert_insert, List.map_cons]

theorem follow_acks (order : CompactionOrder) {groups : List (GoString × GoMap Record)}
    {messages : GoString → Option Pending}
    (hgroups : ∀ group ∈ groups, ∃ msg, messages group.1 = some msg ∧
      ¬ msg.subList.keys ⊆ msg.acked ∧ ∀ subName,
        (subName ∈ msg.acked ↔ ∃ rec, group.2.lookup subName = some rec) ∧
        ∀ rec, group.2.lookup subName = some rec →
          rec.effect = some (.settle msg.queue group.1 subName) ∧
            subName ∈ msg.subList.keys)
    (hnodup : (groups.map Prod.fst).Nodup) {ledger : Ledger}
    (hpending : ∀ group ∈ groups,
      ledger.pending.lookup group.1 = (messages group.1).map Pending.unacked) :
    ledger.AdmitsAll (groups.flatMap fun group =>
        (order.acks.walk group.2).map Prod.snd) ∧
      (ledger.followAll (groups.flatMap fun group =>
        (order.acks.walk group.2).map Prod.snd)).catalog = ledger.catalog ∧
      ∀ msgId, (ledger.followAll (groups.flatMap fun group =>
        (order.acks.walk group.2).map Prod.snd)).pending.lookup msgId =
          if msgId ∈ groups.map Prod.fst then messages msgId
          else ledger.pending.lookup msgId := by
  induction groups generalizing ledger with
  | nil => exact ⟨trivial, rfl, fun msgId => by simp⟩
  | cons group groups ih =>
      rw [List.map_cons, List.nodup_cons] at hnodup
      obtain ⟨msg, hmsg, hwaiting, hacks⟩ := hgroups group List.mem_cons_self
      have henum := order.acks.enumerates group.2
      have hacked : ((order.acks.walk group.2).map Prod.fst).toFinset = msg.acked := by
        ext subName
        rw [(hacks subName).1, List.mem_toFinset, List.mem_map]
        constructor
        · rintro ⟨entry, hmem, rfl⟩
          exact ⟨entry.2, henum.lookup_of_mem hmem⟩
        · rintro ⟨rec, hrec⟩
          exact ⟨(subName, rec), (henum.2 subName rec).mpr hrec, rfl⟩
      have hbare : ledger.pending.lookup group.1 = some { msg with acked := ∅ } := by
        rw [hpending group List.mem_cons_self, hmsg]
        rfl
      obtain ⟨hadmits, hfollow⟩ := follow_settles henum.1
        (fun entry hmem => (hacks entry.1).2 entry.2 (henum.lookup_of_mem hmem))
        (by simp) (by rw [hacked, Finset.empty_union]; exact hwaiting) hbare
      rw [hacked, Finset.empty_union] at hfollow
      have hothers : ∀ other ∈ groups, other.1 ≠ group.1 := by
        intro other hother heq
        rw [← heq] at hnodup
        exact hnodup.1 (List.mem_map_of_mem (f := Prod.fst) hother)
      obtain ⟨hadmitsRest, hcatalog, hlookup⟩ := @ih
        (fun other hother => hgroups other (List.mem_cons_of_mem _ hother)) hnodup.2
        ⟨ledger.catalog, ledger.pending.insert group.1 msg⟩ (by
          intro other hother
          rw [GoMap.lookup_insert_eq, if_neg (hothers other hother)]
          exact hpending other (List.mem_cons_of_mem _ hother))
      rw [List.flatMap_cons, Ledger.admitsAll_append, Ledger.followAll_append, hfollow]
      refine ⟨⟨hadmits, hadmitsRest⟩, hcatalog, fun msgId => ?_⟩
      rw [hlookup, GoMap.lookup_insert_eq, List.map_cons]
      by_cases hid : msgId = group.1
      · subst hid
        simp [hnodup.1, hmsg]
      · simp only [List.mem_cons, hid, false_or, if_false]

theorem Represents.group {s : CompactionState} {ledger : Ledger}
    (hrep : s.Represents ledger) (hsound : ledger.Sound) {msgId : GoString}
    {acks : GoMap Record} (hgroup : s.inFlightAcks.lookup msgId = some acks) :
    ∃ msg, ledger.pending.lookup msgId = some msg ∧ ¬ msg.subList.keys ⊆ msg.acked ∧
      ∀ subName, (subName ∈ msg.acked ↔ ∃ rec, acks.lookup subName = some rec) ∧
        ∀ rec, acks.lookup subName = some rec →
          rec.effect = some (.settle msg.queue msgId subName) ∧
            subName ∈ msg.subList.keys := by
  cases hmsg : ledger.pending.lookup msgId with
  | none =>
      rw [hrep.stray msgId hmsg] at hgroup
      contradiction
  | some msg =>
      have hacks := hrep.acks msgId msg hmsg
      rw [acksOf, hgroup] at hacks
      exact ⟨msg, rfl, hsound.waiting msgId msg hmsg, hacks⟩

theorem Represents.acked_eq_empty {s : CompactionState} {ledger : Ledger}
    (hrep : s.Represents ledger) {msgId : GoString} {msg : Pending}
    (hmsg : ledger.pending.lookup msgId = some msg)
    (hnone : s.inFlightAcks.lookup msgId = none) : msg.acked = ∅ := by
  apply Finset.eq_empty_of_forall_notMem
  intro subName hmem
  obtain ⟨rec, hrec⟩ := (hrep.acks msgId msg hmsg subName).1.mp hmem
  rw [acksOf, hnone] at hrec
  exact absurd hrec (by simp)

theorem Represents.compacted {s : CompactionState} {ledger : Ledger}
    (hrep : s.Represents ledger) (hsound : ledger.Sound) (order : CompactionOrder) :
    ({} : Ledger).AdmitsAll (s.compacted order) ∧
      ({} : Ledger).followAll (s.compacted order) = ledger := by
  obtain ⟨created, hcreated, hcreates⟩ :=
    (order.queues.enumerates s.createdQueues).transfer hrep.queues
  obtain ⟨queues, hqueues, hpolicies⟩ :=
    (order.queueSubs.enumerates s.createdSubs).transfer hrep.subs
  obtain ⟨messages, hmessages, haccepts⟩ :=
    (order.messages.enumerates s.inFlightMessages).transfer hrep.messages
  have hgroups := order.messageAcks.enumerates s.inFlightAcks
  obtain ⟨hadmitsCreates, hfollowCreates⟩ := follow_creates {} hcreates
  have hbare : ∀ queue policies, ledger.catalog.lookup queue = some policies →
      (GoMap.ofList (created.map fun found => (found.1, (∅ : GoMap SubPolicy)))
        ({} : Ledger).catalog).lookup queue = some ∅ := by
    intro queue policies hqueue
    rw [GoMap.lookup_ofList_map hcreated (fun _ _ => (∅ : GoMap SubPolicy)), hqueue]
    rfl
  obtain ⟨hadmitsPolicies, hfollowPolicies⟩ := @follow_policies order _ _ hpolicies
    hqueues.1 ⟨GoMap.ofList (created.map fun found => (found.1, ∅)) ∅, ∅⟩
    (fun found hmem => hbare found.1 found.2 (hqueues.lookup_of_mem hmem))
  have hcatalog : GoMap.ofList queues (GoMap.ofList
      (created.map fun found => (found.1, (∅ : GoMap SubPolicy)))
        ({} : Ledger).catalog) = ledger.catalog := by
    apply Finmap.ext_lookup
    intro queue
    rw [GoMap.lookup_ofList_of_enumerates hqueues,
      GoMap.lookup_ofList_map hcreated (fun _ _ => (∅ : GoMap SubPolicy))]
    cases ledger.catalog.lookup queue <;> rfl
  rw [hcatalog] at hfollowPolicies
  obtain ⟨hadmitsAccepts, hfollowAccepts⟩ := @follow_accepts _ _ haccepts hmessages.1
    ⟨ledger.catalog, ∅⟩
    (fun found hmem => hsound.queued found.1 found.2 (hmessages.lookup_of_mem hmem))
    (fun found hmem => hsound.waiting found.1 found.2 (hmessages.lookup_of_mem hmem))
    (fun found _ => Finmap.lookup_empty found.1)
  have hunacked : ∀ msgId, (GoMap.ofList
      (messages.map fun found => (found.1, found.2.unacked)) ∅).lookup msgId =
        (ledger.pending.lookup msgId).map Pending.unacked := by
    intro msgId
    rw [GoMap.lookup_ofList_map hmessages (fun _ msg => msg.unacked), Finmap.lookup_empty,
      Option.or_none]
  obtain ⟨hadmitsAcks, hcatalogAcks, hpendingAcks⟩ := @follow_acks order
    (order.messageAcks.walk s.inFlightAcks) (fun msgId => ledger.pending.lookup msgId)
    (fun group hmem => hrep.group hsound (hgroups.lookup_of_mem hmem))
    hgroups.1 ⟨ledger.catalog, GoMap.ofList
      (messages.map fun found => (found.1, found.2.unacked)) ∅⟩
    (fun group _ => hunacked group.1)
  rw [CompactionState.compacted]
  simp only [Ledger.admitsAll_append, Ledger.followAll_append, hfollowCreates,
    hfollowPolicies, hfollowAccepts]
  refine ⟨⟨⟨⟨hadmitsCreates, hadmitsPolicies⟩, hadmitsAccepts⟩, hadmitsAcks⟩, ?_⟩
  refine Ledger.ext hcatalogAcks (Finmap.ext_lookup fun msgId => ?_)
  rw [hpendingAcks]
  split_ifs with hacked
  · rfl
  · rw [hunacked]
    cases hmsg : ledger.pending.lookup msgId with
    | none => rfl
    | some msg =>
        have hnone : s.inFlightAcks.lookup msgId = none := by
          cases hlookup : s.inFlightAcks.lookup msgId with
          | none => rfl
          | some acks =>
              exact absurd (List.mem_map_of_mem (f := Prod.fst)
                ((hgroups.2 msgId acks).mpr hlookup)) hacked
        rw [Option.map_some, Pending.unacked, ← hrep.acked_eq_empty hmsg hnone]

end CompactionState

structure CompactionState.Stores (s : CompactionState) (P : Record → Prop) : Prop where
  queues : s.createdQueues.All P
  subs : s.createdSubs.All fun subs => subs.All P
  messages : s.inFlightMessages.All P
  acks : s.inFlightAcks.All fun acks => acks.All P

namespace CompactionState

theorem Stores.editSubs {s : CompactionState} {P : Record → Prop} (hstores : s.Stores P)
    (rec : Record) {edit : GoString → GoMap Record → GoMap Record}
    (hedit : ∀ subName subs, GoMap.All P subs → GoMap.All P (edit subName subs)) :
    (s.editSubs rec edit).Stores P := by
  unfold CompactionState.editSubs
  split
  · rename_i policy subs _ hsubs
    exact { hstores with
      subs := hstores.subs.insert _ (hedit _ _ (hstores.subs _ _ hsubs)) }
  · exact hstores

theorem Stores.applyAck {s : CompactionState} {P : Record → Prop} (hstores : s.Stores P)
    {rec : Record} (hrec : P rec) : (s.applyAck rec).Stores P := by
  have hacksOf : ∀ msgId, (s.acksOf msgId).All P := by
    intro msgId
    unfold acksOf
    cases hacks : s.inFlightAcks.lookup msgId with
    | none => exact GoMap.all_empty P
    | some acks => exact hstores.acks msgId acks hacks
  unfold CompactionState.applyAck
  split
  · exact hstores
  · dsimp only
    split
    · split_ifs
      · exact { hstores with
          messages := hstores.messages.erase _
          acks := hstores.acks.erase _ }
      · exact { hstores with
          acks := hstores.acks.insert _ ((hacksOf _).insert _ hrec) }
    · exact { hstores with
        messages := hstores.messages.erase _
        acks := hstores.acks.erase _ }

theorem Stores.apply {s : CompactionState} {P : Record → Prop} (hstores : s.Stores P)
    {rec : Record} (hrec : P rec) : (s.apply rec).Stores P := by
  unfold CompactionState.apply
  split
  · unfold applyEnqueue
    split
    · split_ifs
      · exact hstores
      · exact { hstores with messages := hstores.messages.insert _ hrec }
    · exact hstores
  · exact hstores.applyAck hrec
  · exact { hstores with
      queues := hstores.queues.insert _ hrec
      subs := hstores.subs.insert _ (GoMap.all_empty P) }
  · exact ⟨hstores.queues.erase _, hstores.subs.erase _, hstores.messages.retain _,
      hstores.acks.retain _⟩
  · exact hstores.editSubs rec fun subName subs hsubs => hsubs.insert subName hrec
  · exact hstores.editSubs rec fun subName subs hsubs => hsubs.erase subName
  · exact hstores

end CompactionState

theorem mem_of_mem_compactRecords {order : CompactionOrder} {records : List Record}
    {rec : Record} (hmem : rec ∈ compactRecords order records) : rec ∈ records := by
  have hstores : ∀ {s : CompactionState} {rest : List Record},
      s.Stores (· ∈ records) → (∀ other ∈ rest, other ∈ records) →
      (rest.foldl CompactionState.apply s).Stores (· ∈ records) := by
    intro s rest hs hrest
    induction rest generalizing s with
    | nil => exact hs
    | cons other rest ih =>
        exact ih (hs.apply (hrest other List.mem_cons_self))
          fun later hlater => hrest later (List.mem_cons_of_mem _ hlater)
  have hempty : ({} : CompactionState).Stores (· ∈ records) :=
    ⟨GoMap.all_empty _, GoMap.all_empty _, GoMap.all_empty _, GoMap.all_empty _⟩
  have hfinal := hstores hempty fun other hother => hother
  simp only [compactRecords, CompactionState.compacted, List.mem_append, List.mem_map,
    List.mem_flatMap] at hmem
  rcases hmem with ((⟨entry, hentry, rfl⟩ | ⟨group, hgroup, entry, hentry, rfl⟩) |
    ⟨entry, hentry, rfl⟩) | ⟨group, hgroup, entry, hentry, rfl⟩
  · exact hfinal.queues _ _ ((order.queues.enumerates _).lookup_of_mem hentry)
  · exact hfinal.subs _ _ ((order.queueSubs.enumerates _).lookup_of_mem hgroup) _ _
      ((order.subs.enumerates _).lookup_of_mem hentry)
  · exact hfinal.messages _ _ ((order.messages.enumerates _).lookup_of_mem hentry)
  · exact hfinal.acks _ _ ((order.messageAcks.enumerates _).lookup_of_mem hgroup) _ _
      ((order.acks.enumerates _).lookup_of_mem hentry)

/-- Compaction keeps the meaning of an admissible log, whatever order Go's maps are
walked in. -/
theorem compactRecords_keeps {records : List Record}
    (hadmits : ({} : Ledger).AdmitsAll records) (order : CompactionOrder) :
    ({} : Ledger).AdmitsAll (compactRecords order records) ∧
      ({} : Ledger).followAll (compactRecords order records) =
        ({} : Ledger).followAll records :=
  (CompactionState.represents_empty.applyAll hadmits).compacted
    (Ledger.sound_empty.followAll hadmits) order

end SimonMQ.Durable
