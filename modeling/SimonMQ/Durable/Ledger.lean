import SimonMQ.Durable.Replay

namespace SimonMQ.Durable

open SimonMQ.Go

/-! What the log is for: which queues exist with which policies, and which messages
still owe a delivery to someone.  Replay computes exactly this, as long as records
arrive in an order the service could have produced. -/

/-- A message that some subscriber of its snapshot has not acked. -/
structure Pending where
  queue : GoString
  content : GoString
  subList : GoMap SubPolicy
  acked : Finset GoString

def Pending.unacked (msg : Pending) : Pending := { msg with acked := ∅ }

@[ext] structure Ledger where
  catalog : GoMap (GoMap SubPolicy) := ∅
  /-- by message id -/
  pending : GoMap Pending := ∅

inductive Effect
  | create (queue : GoString)
  | delete (queue : GoString)
  | subscribe (queue : GoString) (policy : SubPolicy)
  | unsubscribe (queue subName : GoString)
  | accept (queue msgId content : GoString) (subList : GoMap SubPolicy)
  | settle (queue msgId subName : GoString)
  | nothing

/-- The meaning of a record; none for an undecodable payload or an unknown
operation. -/
def Record.effect (rec : Record) : Option Effect :=
  match rec.opType with
  | .createQueue => some (.create rec.queueName)
  | .deleteQueue => some (.delete rec.queueName)
  | .updateSubPolicy => (decodeSubPolicy rec.payload).map (.subscribe rec.queueName)
  | .deleteSubPolicy =>
      (decodeSubPolicy rec.payload).map fun policy =>
        .unsubscribe rec.queueName policy.subName
  | .enqueue =>
      (decodeEnqueue rec.payload).map fun enq =>
        .accept rec.queueName enq.msgId enq.msgContent enq.subList
  | .ack =>
      (decodeAck rec.payload).map fun ack => .settle rec.queueName ack.msgId ack.subName
  | .beginCheckpoint => some .nothing
  | .endCheckpoint => some .nothing
  | .other _ _ => none

def Record.enqueued (rec : Record) : Option Enqueue :=
  if rec.opType = .enqueue then decodeEnqueue rec.payload else none

def Record.acked (rec : Record) : Option Ack :=
  if rec.opType = .ack then decodeAck rec.payload else none

theorem accepted_of_effect {rec : Record} {queue msgId content : GoString}
    {subList : GoMap SubPolicy}
    (heffect : rec.effect = some (.accept queue msgId content subList)) :
    rec.queueName = queue ∧ rec.enqueued = some ⟨msgId, content, subList⟩ := by
  unfold Record.effect at heffect
  split at heffect <;> simp at heffect
  · rename_i hop
    obtain ⟨enq, hdecode, hqueue, rfl, rfl, rfl⟩ := heffect
    exact ⟨hqueue, by simp [Record.enqueued, hop, hdecode]⟩

theorem walk_subNames {α : Type} {policies : GoMap SubPolicy}
    (hkeyed : KeyedByName policies) (order : GoMap.Order SubPolicy) (f : GoString → α) :
    ((order.walk policies).map fun entry => f entry.2.subName) =
      ((order.walk policies).map Prod.fst).map f := by
  rw [List.map_map]
  apply List.map_congr_left
  intro entry hmem
  have hlookup := (order.enumerates policies).lookup_of_mem hmem
  rw [Function.comp_apply, hkeyed entry.1 entry.2 hlookup]

namespace Ledger

def editPolicies (ledger : Ledger) (queue : GoString)
    (edit : GoMap SubPolicy → GoMap SubPolicy) : Ledger :=
  match ledger.catalog.lookup queue with
  | none => ledger
  | some policies => { ledger with catalog := ledger.catalog.insert queue (edit policies) }

/-- The message as acked by one more subscriber; gone once nobody is left. -/
def settle (ledger : Ledger) (msgId subName : GoString) : Ledger :=
  match ledger.pending.lookup msgId with
  | none => ledger
  | some msg =>
      let acked := insert subName msg.acked
      if msg.subList.keys ⊆ acked then
        { ledger with pending := ledger.pending.erase msgId }
      else { ledger with pending := ledger.pending.insert msgId { msg with acked } }

def apply (ledger : Ledger) : Effect → Ledger
  | .create queue => { ledger with catalog := ledger.catalog.insert queue ∅ }
  | .delete queue =>
      { catalog := ledger.catalog.erase queue
        pending := ledger.pending.retain fun _ msg => msg.queue ≠ queue }
  | .subscribe queue policy =>
      ledger.editPolicies queue fun policies => policies.insert policy.subName policy
  | .unsubscribe queue subName =>
      ledger.editPolicies queue fun policies => policies.erase subName
  | .accept queue msgId content subList =>
      if subList.keys = ∅ then ledger
      else
        { ledger with
          pending := ledger.pending.insert msgId ⟨queue, content, subList, ∅⟩ }
  | .settle _ msgId subName => ledger.settle msgId subName
  | .nothing => ledger

/-- The effect could have come from the service: it names a queue that exists, a
message id not in use, or a pending message and a subscriber who still waits. -/
def Admits (ledger : Ledger) : Effect → Prop
  | .create _ => True
  | .delete _ => True
  | .subscribe queue _ => queue ∈ ledger.catalog
  | .unsubscribe queue _ => queue ∈ ledger.catalog
  | .accept queue msgId _ subList =>
      queue ∈ ledger.catalog ∧ ledger.pending.lookup msgId = none ∧ KeyedByName subList
  | .settle queue msgId subName =>
      ∃ msg, ledger.pending.lookup msgId = some msg ∧ msg.queue = queue ∧
        subName ∈ msg.subList.keys ∧ subName ∉ msg.acked
  | .nothing => True

/-- Every pending message sits in an existing queue and waits for someone. -/
structure Sound (ledger : Ledger) : Prop where
  queued : ∀ msgId msg, ledger.pending.lookup msgId = some msg → msg.queue ∈ ledger.catalog
  waiting : ∀ msgId msg, ledger.pending.lookup msgId = some msg →
    ¬ msg.subList.keys ⊆ msg.acked

theorem sound_empty : Sound {} where
  queued := by simp
  waiting := by simp

theorem mem_catalog_iff {catalog : GoMap (GoMap SubPolicy)} {queue : GoString} :
    queue ∈ catalog ↔ ∃ policies, catalog.lookup queue = some policies :=
  Finmap.mem_iff

theorem mem_editPolicies {ledger : Ledger} {queue other : GoString}
    {edit : GoMap SubPolicy → GoMap SubPolicy} :
    other ∈ (ledger.editPolicies queue edit).catalog ↔ other ∈ ledger.catalog := by
  unfold editPolicies
  cases hqueue : ledger.catalog.lookup queue with
  | none => rfl
  | some policies =>
      rw [Finmap.mem_insert]
      constructor
      · rintro (rfl | hother)
        · exact mem_catalog_iff.mpr ⟨policies, hqueue⟩
        · exact hother
      · exact .inr

theorem pending_editPolicies (ledger : Ledger) (queue : GoString)
    (edit : GoMap SubPolicy → GoMap SubPolicy) :
    (ledger.editPolicies queue edit).pending = ledger.pending := by
  unfold editPolicies
  split <;> rfl

theorem catalog_settle (ledger : Ledger) (msgId subName : GoString) :
    (ledger.settle msgId subName).catalog = ledger.catalog := by
  unfold settle
  split
  · rfl
  · dsimp only
    split_ifs <;> rfl

theorem pending_settle {ledger : Ledger} {msgId subName other : GoString} {msg : Pending}
    (hpending : (ledger.settle msgId subName).pending.lookup other = some msg) :
    (∃ old, ledger.pending.lookup other = some old ∧ old.queue = msg.queue) ∧
      (ledger.pending.lookup other = some msg ∨ ¬ msg.subList.keys ⊆ msg.acked) := by
  unfold settle at hpending
  cases hmsg : ledger.pending.lookup msgId with
  | none =>
      rw [hmsg] at hpending
      exact ⟨⟨msg, hpending, rfl⟩, .inl hpending⟩
  | some found =>
      rw [hmsg] at hpending
      dsimp only at hpending
      split_ifs at hpending with hall
      · rw [GoMap.lookup_erase_eq] at hpending
        split_ifs at hpending
        exact ⟨⟨msg, hpending, rfl⟩, .inl hpending⟩
      · rw [GoMap.lookup_insert_eq] at hpending
        split_ifs at hpending with hid
        · cases hpending
          subst hid
          exact ⟨⟨found, hmsg, rfl⟩, .inr hall⟩
        · exact ⟨⟨msg, hpending, rfl⟩, .inl hpending⟩

theorem Sound.apply {ledger : Ledger} (hsound : ledger.Sound) {effect : Effect}
    (haccept : ∀ queue msgId content subList,
      effect = .accept queue msgId content subList → queue ∈ ledger.catalog) :
    (ledger.apply effect).Sound := by
  cases effect with
  | create queue =>
      refine ⟨fun msgId msg hmsg => ?_, hsound.waiting⟩
      exact Finmap.mem_insert.mpr (.inr (hsound.queued msgId msg hmsg))
  | delete queue =>
      refine ⟨fun msgId msg hmsg => ?_, fun msgId msg hmsg => ?_⟩ <;>
        simp only [Ledger.apply, GoMap.lookup_retain, Option.filter_eq_some_iff,
          decide_eq_true_eq] at hmsg
      · exact Finmap.mem_erase.mpr ⟨hmsg.2, hsound.queued msgId msg hmsg.1⟩
      · exact hsound.waiting msgId msg hmsg.1
  | subscribe queue policy =>
      refine ⟨fun msgId msg hmsg => ?_, fun msgId msg hmsg => ?_⟩ <;>
        rw [Ledger.apply, pending_editPolicies] at hmsg
      · exact mem_editPolicies.mpr (hsound.queued msgId msg hmsg)
      · exact hsound.waiting msgId msg hmsg
  | unsubscribe queue subName =>
      refine ⟨fun msgId msg hmsg => ?_, fun msgId msg hmsg => ?_⟩ <;>
        rw [Ledger.apply, pending_editPolicies] at hmsg
      · exact mem_editPolicies.mpr (hsound.queued msgId msg hmsg)
      · exact hsound.waiting msgId msg hmsg
  | accept queue msgId content subList =>
      rw [Ledger.apply]
      split_ifs with hempty
      · exact hsound
      · refine ⟨fun other msg hmsg => ?_, fun other msg hmsg => ?_⟩ <;>
          rw [GoMap.lookup_insert_eq] at hmsg <;> split_ifs at hmsg
        · cases hmsg
          exact haccept _ _ _ _ rfl
        · exact hsound.queued other msg hmsg
        · cases hmsg
          simpa [Finset.subset_empty] using hempty
        · exact hsound.waiting other msg hmsg
  | settle queue msgId subName =>
      refine ⟨fun other msg hmsg => ?_, fun other msg hmsg => ?_⟩
      · obtain ⟨⟨old, hold, hqueue⟩, _⟩ := pending_settle hmsg
        rw [Ledger.apply, catalog_settle, ← hqueue]
        exact hsound.queued other old hold
      · rcases (pending_settle hmsg).2 with hold | hwaits
        · exact hsound.waiting other msg hold
        · exact hwaits
  | nothing => exact hsound

/-! A whole log. -/

/-- The ledger after a record; one without a meaning changes nothing. -/
def follow (ledger : Ledger) (rec : Record) : Ledger :=
  match rec.effect with
  | none => ledger
  | some effect => ledger.apply effect

/-- Every record of the log means something that the ledger admits at that point. -/
def AdmitsAll (ledger : Ledger) : List Record → Prop
  | [] => True
  | rec :: records =>
      (∃ effect, rec.effect = some effect ∧ ledger.Admits effect) ∧
        (ledger.follow rec).AdmitsAll records

def followAll (ledger : Ledger) (records : List Record) : Ledger :=
  records.foldl follow ledger

theorem follow_of_effect {ledger : Ledger} {rec : Record} {effect : Effect}
    (heffect : rec.effect = some effect) : ledger.follow rec = ledger.apply effect := by
  rw [follow, heffect]

@[simp] theorem followAll_nil (ledger : Ledger) : ledger.followAll [] = ledger := rfl

@[simp] theorem followAll_cons (ledger : Ledger) (rec : Record) (records : List Record) :
    ledger.followAll (rec :: records) = (ledger.follow rec).followAll records := rfl

theorem followAll_append (ledger : Ledger) (before after : List Record) :
    ledger.followAll (before ++ after) = (ledger.followAll before).followAll after :=
  List.foldl_append

theorem admitsAll_append {ledger : Ledger} {before after : List Record} :
    ledger.AdmitsAll (before ++ after) ↔
      ledger.AdmitsAll before ∧ (ledger.followAll before).AdmitsAll after := by
  induction before generalizing ledger with
  | nil => simp [AdmitsAll]
  | cons rec before ih =>
      simp only [List.cons_append, AdmitsAll, ih, followAll_cons, and_assoc]

theorem Sound.followAll {ledger : Ledger} (hsound : ledger.Sound) {records : List Record}
    (hadmits : ledger.AdmitsAll records) : (ledger.followAll records).Sound := by
  induction records generalizing ledger with
  | nil => exact hsound
  | cons rec records ih =>
      obtain ⟨⟨effect, heffect, hrec⟩, hrest⟩ := hadmits
      refine ih ?_ hrest
      rw [follow_of_effect heffect]
      refine hsound.apply fun queue msgId content subList haccept => ?_
      subst haccept
      exact hrec.1

end Ledger

/-- The replayed state holds the ledger's content. -/
structure Replayed.Reflects (state : Replayed) (ledger : Ledger) : Prop where
  catalog : state.cat = ledger.catalog
  pending : ∀ queue msgId msg,
    (state.message queue msgId = some msg ∧ msg.hasUnackedSubs = true) ↔
      ledger.pending.lookup msgId =
        some ⟨queue, msg.content, msg.subList, msg.ackedSubs⟩

namespace Replayed

theorem reflects_empty : Reflects {} {} where
  catalog := rfl
  pending := by
    intro queue msgId msg
    simp [message, Delivery.messages]

theorem Reflects.message_eq {left right : Replayed} {ledger : Ledger}
    (hleft : left.Reflects ledger) (hright : right.Reflects ledger)
    (queue msgId : GoString) :
    (left.message queue msgId).filter Message.hasUnackedSubs =
      (right.message queue msgId).filter Message.hasUnackedSubs := by
  apply Option.ext
  intro msg
  rw [Option.filter_eq_some_iff, Option.filter_eq_some_iff, hleft.pending,
    hright.pending]

theorem Reflects.sameService {left right : Replayed} {ledger : Ledger}
    (hleft : left.Reflects ledger) (hright : right.Reflects ledger) :
    SameService left right where
  policies := hleft.catalog.trans hright.catalog.symm
  messages := fun queue msgId _ => hleft.message_eq hright queue msgId

/-! Replay follows the ledger, one lemma per effect. -/

section Refinement

variable {state : Replayed} {ledger : Ledger}

theorem message_setMessage (state : Replayed) (queue msgId : GoString) (msg : Message)
    (other otherId : GoString) :
    message { state with deli := state.deli.setMessage queue msgId msg } other otherId =
      if other = queue ∧ otherId = msgId then some msg else state.message other otherId := by
  simp only [message, Delivery.setMessage, Delivery.messages, GoMap.lookup_insert_eq]
  by_cases hqueue : other = queue
  · subst hqueue
    simp [GoMap.lookup_insert_eq]
  · simp [hqueue]

theorem message_deleteQueue (state : Replayed) (cat : Catalog) (queue other msgId : GoString) :
    message ⟨cat, state.deli.deleteQueueMessages queue⟩ other msgId =
      if other = queue then none else state.message other msgId := by
  simp only [message, Delivery.messages, Delivery.deleteQueueMessages,
    GoMap.lookup_erase_eq]
  by_cases hqueue : other = queue
  · simp [hqueue]
  · simp [hqueue]

theorem Reflects.accept (hreflects : state.Reflects ledger) {queue msgId content : GoString}
    {subList : GoMap SubPolicy} (hfresh : ledger.pending.lookup msgId = none) :
    Reflects { state with deli := state.deli.setMessage queue msgId ⟨content, subList, ∅⟩ }
      (ledger.apply (.accept queue msgId content subList)) where
  catalog := by
    rw [Ledger.apply]
    split_ifs <;> exact hreflects.catalog
  pending := by
    intro other otherId msg
    have hold := hreflects.pending other otherId msg
    rw [message_setMessage, Ledger.apply]
    by_cases hid : otherId = msgId
    · subst hid
      have hnone : ¬ (state.message other otherId = some msg ∧ msg.hasUnackedSubs = true) := by
        rw [hold, hfresh]
        simp
      by_cases hempty : subList.keys = ∅
      · rw [if_pos hempty, hfresh]
        by_cases hqueue : other = queue
        · simp only [hqueue, and_self, if_true, Option.some.injEq]
          constructor
          · rintro ⟨rfl, hwaits⟩
            simp [Message.hasUnackedSubs, hempty] at hwaits
          · simp
        · simp [hqueue, hnone]
      · rw [if_neg hempty]
        simp only [GoMap.lookup_insert_eq, if_true, Option.some.injEq, Pending.mk.injEq]
        by_cases hqueue : other = queue
        · simp only [hqueue, and_self, if_true, Option.some.injEq, true_and]
          constructor
          · rintro ⟨rfl, _⟩
            exact ⟨rfl, rfl, rfl⟩
          · obtain ⟨content', subList', acked'⟩ := msg
            rintro ⟨rfl, rfl, rfl⟩
            refine ⟨rfl, ?_⟩
            simpa [Message.hasUnackedSubs, Finset.subset_empty] using hempty
        · simp [hqueue, Ne.symm hqueue, hnone]
    · simp only [hid, and_false, if_false]
      rw [hold]
      split_ifs
      · rfl
      · simp only [GoMap.lookup_insert_eq, hid, if_false]

theorem Reflects.delete (hreflects : state.Reflects ledger) (queue : GoString) :
    Reflects ⟨state.cat.removeQueue queue, state.deli.deleteQueueMessages queue⟩
      (ledger.apply (.delete queue)) where
  catalog := by rw [Ledger.apply, Catalog.removeQueue, hreflects.catalog]
  pending := by
    intro other msgId msg
    rw [message_deleteQueue, Ledger.apply]
    simp only [GoMap.lookup_retain, Option.filter_eq_some_iff, decide_eq_true_eq]
    rw [← hreflects.pending other msgId msg]
    by_cases hqueue : other = queue
    · simp [hqueue]
    · simp [hqueue]

theorem Reflects.settle (hreflects : state.Reflects ledger) {queue msgId subName : GoString}
    {msg : Message} (hmsg : state.message queue msgId = some msg)
    (hunacked : msg.hasUnackedSubs = true) :
    Reflects { state with deli := state.deli.setMessage queue msgId (msg.markAcked subName) }
      (ledger.settle msgId subName) := by
  have hpending := (hreflects.pending queue msgId msg).mp ⟨hmsg, hunacked⟩
  constructor
  · simp only [Ledger.settle, hpending]
    split_ifs <;> exact hreflects.catalog
  · intro other otherId found
    have hold := hreflects.pending other otherId found
    rw [message_setMessage]
    simp only [Ledger.settle, hpending, Message.markAcked]
    by_cases hid : otherId = msgId
    · subst hid
      by_cases hqueue : other = queue
      · subst hqueue
        simp only [and_self, if_true, Option.some.injEq]
        split_ifs with hall
        · simp only [GoMap.lookup_erase_eq, if_true]
          constructor
          · rintro ⟨rfl, hwaits⟩
            simp [Message.hasUnackedSubs, hall] at hwaits
          · simp
        · simp only [GoMap.lookup_insert_eq, if_true, Option.some.injEq, Pending.mk.injEq,
            true_and]
          constructor
          · rintro ⟨rfl, _⟩
            exact ⟨rfl, rfl, rfl⟩
          · obtain ⟨content', subList', acked'⟩ := found
            rintro ⟨rfl, rfl, rfl⟩
            exact ⟨rfl, by simpa [Message.hasUnackedSubs] using hall⟩
      · -- The id is pending in one queue only.
        have hnone : ¬ (state.message other otherId = some found ∧
            found.hasUnackedSubs = true) := by
          rw [hold, hpending, Option.some.injEq, Pending.mk.injEq]
          exact fun heq => hqueue heq.1.symm
        simp only [hqueue, false_and, if_false, hnone, false_iff]
        split_ifs
        · simp
        · simp only [GoMap.lookup_insert_eq, if_true, Option.some.injEq, Pending.mk.injEq]
          exact fun heq => hqueue heq.1.symm
    · simp only [hid, and_false, if_false]
      rw [hold]
      split_ifs
      · simp only [GoMap.lookup_erase_eq, hid, if_false]
      · simp only [GoMap.lookup_insert_eq, hid, if_false]

theorem Reflects.editPolicies (hreflects : state.Reflects ledger) {queue : GoString}
    (hqueue : queue ∈ ledger.catalog) {payload : Bytes} {policy : SubPolicy}
    (hdecode : decodeSubPolicy payload = some policy)
    (edit : SubPolicy → GoMap SubPolicy → GoMap SubPolicy) :
    ∃ cat, state.cat.editPolicies queue payload edit = .ok cat ∧
      Reflects { state with cat } (ledger.editPolicies queue (edit policy)) := by
  obtain ⟨policies, hpolicies⟩ := Ledger.mem_catalog_iff.mp hqueue
  refine ⟨state.cat.insert queue (edit policy policies), ?_, ?_, ?_⟩
  · simp only [Catalog.editPolicies, hdecode, hreflects.catalog, hpolicies]
  · simp only [Ledger.editPolicies, hpolicies, hreflects.catalog]
  · intro other msgId msg
    rw [Ledger.pending_editPolicies]
    exact hreflects.pending other msgId msg

theorem Reflects.replayRecord (hreflects : state.Reflects ledger) {rec : Record}
    {effect : Effect} (heffect : rec.effect = some effect)
    (hadmits : ledger.Admits effect) :
    ∃ next, state.replayRecord rec = .ok next ∧
      next.Reflects (ledger.apply effect) := by
  cases hop : rec.opType with
  | enqueue =>
      simp only [Record.effect, hop, Option.map_eq_some_iff] at heffect
      obtain ⟨enq, hdecode, rfl⟩ := heffect
      refine ⟨_, ?_, hreflects.accept hadmits.2.1⟩
      simp only [Replayed.replayRecord, Delivery.processEnqueue, hop, hdecode, ne_eq,
        not_true_eq_false, if_false]
  | ack =>
      simp only [Record.effect, hop, Option.map_eq_some_iff] at heffect
      obtain ⟨ack, hdecode, rfl⟩ := heffect
      obtain ⟨⟨queue, content, subList, acked⟩, hpending, hqueue, hsub, hunacked⟩ := hadmits
      dsimp only at hqueue hsub hunacked
      subst hqueue
      obtain ⟨hmsg, hwaits⟩ :=
        (hreflects.pending _ ack.msgId ⟨content, subList, acked⟩).mpr hpending
      obtain ⟨messages, hmessages⟩ :
          ∃ messages, state.deli.lookup rec.queueName = some messages := by
        cases hlookup : state.deli.lookup rec.queueName with
        | none => simp [message, Delivery.messages, hlookup] at hmsg
        | some messages => exact ⟨messages, rfl⟩
      have hfound : messages.lookup ack.msgId = some ⟨content, subList, acked⟩ := by
        simpa [message, Delivery.messages, hmessages] using hmsg
      obtain ⟨policy, hpolicy⟩ := Finmap.mem_iff.mp (Finmap.mem_keys.mp hsub)
      refine ⟨_, ?_, hreflects.settle hmsg hwaits⟩
      simp only [Replayed.replayRecord, Delivery.processAck, hop, hdecode, hmessages,
        hfound, hpolicy, ne_eq, not_true_eq_false, if_false, Delivery.setMessage,
        Delivery.messages, Option.getD_some]
  | createQueue =>
      simp only [Record.effect, hop, Option.some.injEq] at heffect
      subst heffect
      refine ⟨{ state with cat := state.cat.createQueue rec.queueName }, ?_, ?_, ?_⟩
      · simp only [Replayed.replayRecord, hop, Catalog.processRecord]
      · simp only [Catalog.createQueue, hreflects.catalog, Ledger.apply]
      · exact hreflects.pending
  | deleteQueue =>
      simp only [Record.effect, hop, Option.some.injEq] at heffect
      subst heffect
      refine ⟨_, ?_, hreflects.delete rec.queueName⟩
      simp only [Replayed.replayRecord, hop, Catalog.processRecord]
  | updateSubPolicy =>
      simp only [Record.effect, hop, Option.map_eq_some_iff] at heffect
      obtain ⟨policy, hdecode, rfl⟩ := heffect
      obtain ⟨cat, hedit, hnext⟩ := hreflects.editPolicies hadmits hdecode
        fun policy policies => policies.insert policy.subName policy
      refine ⟨_, ?_, hnext⟩
      simp only [Replayed.replayRecord, hop, Catalog.processRecord, Catalog.updateSubPolicy,
        hedit]
  | deleteSubPolicy =>
      simp only [Record.effect, hop, Option.map_eq_some_iff] at heffect
      obtain ⟨policy, hdecode, rfl⟩ := heffect
      obtain ⟨cat, hedit, hnext⟩ := hreflects.editPolicies hadmits hdecode
        fun policy policies => policies.erase policy.subName
      refine ⟨_, ?_, hnext⟩
      simp only [Replayed.replayRecord, hop, Catalog.processRecord, Catalog.removeSubPolicy,
        hedit]
  | beginCheckpoint =>
      simp only [Record.effect, hop, Option.some.injEq] at heffect
      subst heffect
      exact ⟨state, by simp only [Replayed.replayRecord, hop, Catalog.processRecord],
        hreflects⟩
  | endCheckpoint =>
      simp only [Record.effect, hop, Option.some.injEq] at heffect
      subst heffect
      exact ⟨state, by simp only [Replayed.replayRecord, hop, Catalog.processRecord],
        hreflects⟩
  | other code hcode => simp [Record.effect, hop] at heffect

theorem Reflects.replay (hreflects : state.Reflects ledger) {records : List Record}
    (hadmits : ledger.AdmitsAll records) :
    ∃ final, state.replay records = .ok final ∧
      final.Reflects (ledger.followAll records) := by
  induction records generalizing state ledger with
  | nil => exact ⟨state, rfl, hreflects⟩
  | cons rec records ih =>
      obtain ⟨⟨effect, heffect, hrec⟩, hrest⟩ := hadmits
      obtain ⟨next, hnext, hreflects'⟩ := hreflects.replayRecord heffect hrec
      rw [← Ledger.follow_of_effect heffect] at hreflects'
      obtain ⟨final, hfinal, hdone⟩ := ih hreflects' hrest
      exact ⟨final, by simp only [Replayed.replay, hnext, hfinal], hdone⟩

end Refinement

end Replayed

end SimonMQ.Durable
