import SimonMQ.Durable.Registry

namespace SimonMQ.Durable

open SimonMQ.Go
open SimonMQ.Go.Utf8
open SimonMQ.Transition

/-! Whether every accepted message is somewhere where a worker will find it. -/

/-- The log accepts the message into the queue as it now stands, and some subscriber of
the message's snapshot has not acked it. -/
def Outstanding (log : List Record) (queue msgId : GoString) : Prop :=
  survives queue msgId log = true ∧
    ∃ rec ∈ log, ∃ enq ∈ rec.enqueued, rec.queueName = queue ∧ enq.msgId = msgId ∧
      ∃ subName ∈ enq.subList.keys, ∀ other ∈ log, other.acked ≠ some ⟨msgId, subName⟩

instance (log : List Record) (queue msgId : GoString) :
    Decidable (Outstanding log queue msgId) :=
  inferInstanceAs (Decidable (_ ∧ _))

theorem effect_of_enqueued {rec : Record} {enq : Enqueue} (henq : rec.enqueued = some enq) :
    rec.effect = some (.accept rec.queueName enq.msgId enq.msgContent enq.subList) := by
  unfold Record.enqueued at henq
  split_ifs at henq with hop
  simp [Record.effect, hop, henq]

/-- The ledger has the message in the queue, and the subscriber has not acked it. -/
def Ledger.Waits (ledger : Ledger) (queue msgId subName : GoString) : Prop :=
  ∃ pending, ledger.pending.lookup msgId = some pending ∧ pending.queue = queue ∧
    subName ∈ pending.subList.keys ∧ subName ∉ pending.acked

theorem Ledger.Waits.apply {ledger : Ledger} {queue msgId subName : GoString}
    (hwaits : ledger.Waits queue msgId subName) {effect : Effect}
    (hstays : effect.deletes queue = false) (hold : msgId ∉ effect.newIds)
    (hunacked : ∀ name, effect ≠ .settle name msgId subName) :
    (ledger.apply effect).Waits queue msgId subName := by
  obtain ⟨pending, hpending, hqueue, hsub, hacked⟩ := hwaits
  by_cases hmessage : effect.message = some msgId
  · cases effect with
    | settle name id acker =>
        cases hmessage
        have hother : subName ≠ acker := by
          rintro rfl
          exact hunacked name rfl
        have hmissing : ¬ pending.subList.keys ⊆ insert acker pending.acked := by
          intro hall
          rcases Finset.mem_insert.mp (hall hsub) with heq | hmem
          · exact hother heq
          · exact hacked hmem
        refine ⟨{ pending with acked := insert acker pending.acked }, ?_, hqueue, hsub, ?_⟩
        · rw [Ledger.apply, lookup_settle_self, hpending, Option.bind_some, if_neg hmissing]
        · simp [hother, hacked]
    | accept name id content subList =>
        cases hmessage
        exact absurd List.mem_cons_self hold
    | create _ | delete _ | subscribe _ _ | unsubscribe _ _ | nothing => contradiction
  · refine ⟨pending, ?_, hqueue, hsub, hacked⟩
    rw [lookup_apply_other hmessage, hpending, Option.filter_eq_some_iff, hqueue, hstays]
    exact ⟨rfl, rfl⟩

theorem waits_of_unacked {log : List Record} (hids : (enqueuedIds log).Nodup)
    {rec : Record} (hrec : rec ∈ log) {enq : Enqueue} (henq : rec.enqueued = some enq)
    {subName : GoString} (hsub : subName ∈ enq.subList.keys)
    (hunacked : ∀ other ∈ log, other.acked ≠ some ⟨enq.msgId, subName⟩)
    (halive : survives rec.queueName enq.msgId log = true) :
    (({} : Ledger).followAll log).Waits rec.queueName enq.msgId subName := by
  induction log using List.reverseRecOn with
  | nil => contradiction
  | append_singleton log last ih =>
      rcases List.mem_append.mp hrec with hearlier | hlast
      · have hrest : ∀ other ∈ log, other.acked ≠ some ⟨enq.msgId, subName⟩ :=
          fun other hother => hunacked other (List.mem_append_left _ hother)
        cases heffect : last.effect with
        | none =>
            have hids' : (enqueuedIds log).Nodup := by
              rw [enqueuedIds, List.filterMap_append] at hids
              exact (List.nodup_append.mp hids).1
            have halive' : survives rec.queueName enq.msgId log = true := by
              simpa only [survives, List.foldl_append, List.foldl_cons, List.foldl_nil,
                heffect] using halive
            rw [Ledger.followAll_append, Ledger.followAll_cons, Ledger.followAll_nil,
              Ledger.follow, heffect]
            exact ih hids' hearlier hrest halive'
        | some effect =>
            rw [enqueuedIds_concat log heffect, List.nodup_append] at hids
            have hused : enq.msgId ∈ enqueuedIds log :=
              List.mem_filterMap.mpr ⟨rec, hearlier, by rw [henq, Option.map_some]⟩
            have hold : enq.msgId ∉ effect.newIds := fun hnew =>
              hids.2.2 enq.msgId hused enq.msgId hnew rfl
            rw [survives_concat _ _ _ heffect, Effect.not_accepts_of_newIds hold,
              Bool.or_false, Bool.and_eq_true, Bool.not_eq_true'] at halive
            rw [Ledger.followAll_concat _ _ heffect]
            refine (ih hids.1 hearlier hrest halive.1).apply halive.2 hold ?_
            rintro name rfl
            obtain ⟨hop, -, hdecode⟩ := acked_of_effect heffect
            exact hunacked last (by simp) (by simp [Record.acked, hop, hdecode])
      · rw [List.mem_singleton] at hlast
        subst hlast
        have hsome : enq.subList.keys ≠ ∅ := Finset.ne_empty_of_mem hsub
        refine ⟨⟨rec.queueName, enq.msgContent, enq.subList, ∅⟩, ?_, rfl, hsub, by simp⟩
        rw [Ledger.followAll_concat _ _ (effect_of_enqueued henq), Ledger.apply,
          if_neg hsome]
        exact (GoMap.lookup_insert_eq _ _ _ _).trans (if_pos rfl)

namespace Broker

/-- The object registered under the name has the message in its buffer or its worker
holds it, or an `Enqueue` call is about to `Add` it. -/
def Attended (b : Broker) (queue msgId : GoString) : Prop :=
  (∃ object ∈ b.queues.lookup queue, ∃ q ∈ b.objects[object]?,
      ∃ msg ∈ q.buf ++ q.worker.hand.toList, msg.logId = msgId) ∨
    ∃ q ∈ b.objects, ∃ msg ∈ q.adding, msg.logId = msgId

instance (b : Broker) (queue msgId : GoString) : Decidable (b.Attended queue msgId) :=
  inferInstanceAs (Decidable (_ ∨ _))

/-- The call whose message the coordinator is asked to accept. -/
def accepting (b : Broker) : BrokerEvent → Option EnqueueCall
  | .accept index _ => b.calls[index]?
  | _ => none

/-- The coordinator accepts a message only while the object that the call has looked up
is the registered one. -/
def Current (b : Broker) (event : BrokerEvent) : Prop :=
  ∀ call ∈ b.accepting event, call.queueName ∈ b.cat →
    b.queues.lookup call.queueName = some call.object

instance (b : Broker) (event : BrokerEvent) : Decidable (b.Current event) :=
  inferInstanceAs (Decidable (∀ call ∈ b.accepting event, call.queueName ∈ b.cat →
    b.queues.lookup call.queueName = some call.object))

def Has (b : Broker) (queue msgId : GoString) : Prop :=
  ∃ object q, b.queues.lookup queue = some object ∧ b.objects[object]? = some q ∧
    msgId ∈ q.ids

/-- Every message that the ledger has is with the registered object of its queue. -/
def Located (b : Broker) : Prop :=
  ∀ msgId pending, b.ledger.pending.lookup msgId = some pending →
    b.Has pending.queue msgId

variable {b next : Broker}

theorem Has.setObject {queue msgId : GoString} (hhas : b.Has queue msgId) {object : Nat}
    {q moved : Queue} (hq : b.objects[object]? = some q)
    (hkeeps : msgId ∈ q.ids → msgId ∈ moved.ids) :
    (b.setObject object moved).Has queue msgId := by
  obtain ⟨found, other, hlookup, hother, hmem⟩ := hhas
  by_cases hsame : found = object
  · subst hsame
    rw [hq] at hother
    cases hother
    exact ⟨found, moved, hlookup, by rw [getElem?_setObject hq, if_pos rfl], hkeeps hmem⟩
  · exact ⟨found, other, hlookup, by rw [getElem?_setObject hq, if_neg hsame, hother], hmem⟩

namespace Located

theorem append (hlocated : b.Located) {rec : Record} {effect : Effect}
    (heffect : rec.effect = some effect) (hnone : effect.message = none) :
    (b.append rec).Located := by
  intro msgId pending hpending
  have hother : effect.message ≠ some msgId := by
    rw [hnone]
    simp
  rw [ledger, Broker.append, Ledger.followAll_concat _ _ heffect,
    Ledger.lookup_apply_other hother, Option.filter_eq_some_iff] at hpending
  exact hlocated msgId pending hpending.1

theorem editPolicies (hlocated : b.Located) {request : Request}
    (hedits : ∀ effect, b.cat.Writes request effect → effect.message = none) :
    (b.request request).Located := by
  rcases b.request_cases request with hsame | ⟨rec, effect, hrecord, heffect, hwrites, hnext⟩
  · rw [hsame]
    exact hlocated
  · rw [hnext]
    exact hlocated.append heffect (hedits effect hwrites)

theorem createQueue (hlocated : b.Located) (name : GoString) :
    (b.createQueue name).Located := by
  unfold Broker.createQueue
  split_ifs
  · exact hlocated
  · exact hlocated
  · cases hrecord : b.cat.record (.createQueue name) with
    | error err => exact hlocated
    | ok rec =>
        obtain ⟨effect, heffect, hwrites⟩ := Catalog.writes_of_record hrecord
        exact hlocated.append heffect (by cases hwrites; rfl)

theorem deleteQueue (hlocated : b.Located) (name : GoString) :
    (b.deleteQueue name).Located := by
  unfold Broker.deleteQueue
  cases b.queues.lookup name with
  | none => exact hlocated
  | some object =>
      cases hrecord : b.cat.record (.deleteQueue name) with
      | error err => exact hlocated
      | ok rec =>
          obtain ⟨effect, heffect, hwrites⟩ := Catalog.writes_of_record hrecord
          exact hlocated.append heffect (by cases hwrites; rfl)

theorem register (hlocated : b.Located) (hsane : b.Sane) {name : GoString}
    (hmu : b.mu = some (.creating name)) : (b.register name).Located := by
  intro msgId pending hpending
  obtain ⟨object, q, hlookup, hq, hmem⟩ := hlocated msgId pending hpending
  have hother : pending.queue ≠ name := by
    rintro rfl
    rw [hsane.wired.creating _ hmu] at hlookup
    contradiction
  have hlt := (List.getElem?_eq_some_iff.mp hq).1
  refine ⟨object, q, ?_, ?_, hmem⟩
  · rw [Broker.register, GoMap.lookup_insert_eq, if_neg hother, hlookup]
  · rw [Broker.register, List.getElem?_append_left hlt, hq]

theorem unregister (hlocated : b.Located) (hsane : b.Sane) {name : GoString}
    {object : Nat} (hmu : b.mu = some (.deleting name object)) :
    (b.unregister name object).Located := by
  obtain ⟨q, hq, -, -⟩ :=
    hsane.wired.registered name object (hsane.wired.deleting name object hmu)
  rw [unregister_eq hq]
  intro msgId pending hpending
  have hother : pending.queue ≠ name := by
    rintro rfl
    have hqueued := hsane.book.sound.queued msgId pending hpending
    rw [← hsane.book.catalog] at hqueued
    exact hsane.closing _ object hmu hqueued
  have hhas : (b.setObject object q.close).Has pending.queue msgId :=
    (hlocated msgId pending hpending).setObject hq fun hmem => hmem
  obtain ⟨found, other, hlookup, hfound, hmem⟩ := hhas
  refine ⟨found, other, ?_, hfound, hmem⟩
  rw [GoMap.lookup_erase_eq, if_neg hother]
  exact hlookup

theorem accept (hlocated : b.Located) (hsane : b.Sane) {call : EnqueueCall}
    (hcall : call ∈ b.calls) (uuid : GoString)
    (hcurrent : call.queueName ∈ b.cat → b.queues.lookup call.queueName = some call.object) :
    (b.accept call uuid).Located := by
  rcases hsane.accept_cases hcall uuid with
    ⟨-, hsame⟩ | ⟨subList, rec, q, hmem, hsubs, hrecord, heffect, hq, hname, hnext⟩
  · rw [hsame]
    exact hlocated
  · rw [hnext]
    intro msgId pending hpending
    have hafter : (b.ledger.apply (.accept call.queueName (toValid (call.msgId uuid))
        (toValid call.payload) subList)).pending.lookup msgId = some pending := by
      rw [ledger, ← Ledger.followAll_concat _ _ heffect]
      exact hpending
    by_cases hnew : msgId = toValid (call.msgId uuid)
    · subst hnew
      rw [Ledger.apply] at hafter
      split_ifs at hafter
      · exact (hlocated _ pending hafter).setObject hq fun hold => List.mem_cons_of_mem _ hold
      · have hlookup := (GoMap.lookup_insert_eq _ _ _ _).symm.trans hafter
        rw [if_pos rfl] at hlookup
        cases hlookup
        refine ⟨call.object,
          q.expect (newQueueMsg (call.msgId uuid) call.payload subList ∅), hcurrent hmem, ?_,
          List.mem_cons_self⟩
        have hq' : (b.append rec).objects[call.object]? = some q := hq
        rw [getElem?_setObject hq', if_pos rfl]
    · rw [Ledger.lookup_apply_other (by simp [Effect.message, Ne.symm hnew]),
        Option.filter_eq_some_iff] at hafter
      exact (hlocated msgId pending hafter.1).setObject hq fun hold =>
        List.mem_cons_of_mem _ hold

theorem add (hlocated : b.Located) {object index : Nat} {q : Queue} {msg : QueueMsg}
    (hq : b.objects[object]? = some q) (hmsg : q.adding[index]? = some msg) :
    (b.setObject object ({ q with adding := q.adding.eraseIdx index }.add msg)).Located := by
  intro msgId pending hpending
  have hids := (Queue.items_add_perm hmsg).map QueueMsg.logId
  exact (hlocated msgId pending hpending).setObject hq fun hmem => hids.mem_iff.mpr hmem

theorem keeps (hsane : b.Sane) {object : Nat} {q moved : Queue} {request : Option Request}
    (hq : b.objects[object]? = some q) (hmoved : q.Moved moved request) {msgId : GoString}
    {pending : Pending} (hpending : b.ledger.pending.lookup msgId = some pending)
    (hmem : msgId ∈ q.ids) : msgId ∈ moved.ids := by
  obtain ⟨msg, hmsg, rfl⟩ := List.mem_map.mp hmem
  have hkept := (hsane.holdings.kept object q hq).items msg hmsg
  rcases hmoved.lost msg hmsg with hstays | hdone
  · exact hstays
  · exact absurd hdone (hkept.not_done hsane.book.sound hpending)

theorem work (hlocated : b.Located) (hsane : b.Sane) {object : Nat} {move : Move}
    (hstep : b.step (.work object move) = some next) : next.Located := by
  obtain ⟨q, moved, hq, ⟨hmoved, rfl⟩ | ⟨hand, subName, rec, -, -, -, -, hmoved, -, heffect,
    rfl⟩⟩ := hsane.work_cases hstep
  · intro msgId pending hpending
    exact (hlocated msgId pending hpending).setObject hq (keeps hsane hq hmoved hpending)
  · intro msgId pending hpending
    have hafter : (b.ledger.settle hand.logId subName).pending.lookup msgId = some pending := by
      have hfollow := Ledger.followAll_concat {} b.log heffect
      rw [Ledger.apply] at hfollow
      rw [ledger, ← hfollow]
      exact hpending
    obtain ⟨⟨old, hold, hqueue⟩, -⟩ := Ledger.pending_settle hafter
    have hhas := hlocated msgId old hold
    rw [hqueue] at hhas
    exact hhas.setObject hq (keeps hsane hq hmoved hold)

theorem step {event : BrokerEvent} (hlocated : b.Located) (hsane : b.Sane)
    (hcurrent : b.Current event) (hstep : b.step event = some next) : next.Located := by
  cases steps_of_step hstep with
  | createQueue hmu name => exact hlocated.createQueue name
  | register hmu => exact hlocated.register hsane hmu
  | deleteQueue hmu name => exact hlocated.deleteQueue name
  | unregister hmu => exact hlocated.unregister hsane hmu
  | editPolicies hrequest =>
      exact hlocated.editPolicies fun effect hwrites =>
        (edits_of_policyRequest hrequest hwrites).1
  | find queueName payload =>
      unfold Broker.find
      split <;> exact hlocated
  | @accept index call hcall uuid =>
      exact hlocated.accept hsane (List.mem_of_getElem? hcall) uuid
        (hcurrent call (by simp [accepting, hcall]))
  | add hq hmsg => exact hlocated.add hq hmsg
  | work hstep => exact hlocated.work hsane hstep

end Located

theorem sane_located_run {events : List BrokerEvent} {b : Broker}
    (hmeets : Meets step (fun b event => b.Fresh event ∧ b.Current event) {} events)
    (hexec : exec step {} events = some b) : b.Sane ∧ b.Located := by
  refine exec_invariant (P := fun b => b.Sane ∧ b.Located) ?_ ⟨sane_initial, ?_⟩ hmeets hexec
  · rintro state event next ⟨hsane, hlocated⟩ ⟨hfresh, hcurrent⟩ hstep
    exact ⟨hsane.step hfresh hstep, hlocated.step hsane hcurrent hstep⟩
  · intro msgId pending hpending
    simp [ledger] at hpending

/-- No accepted message is stranded: as long as it is outstanding it is attended, and
the worker of its queue runs. -/
theorem accepted_message_is_attended {events : List BrokerEvent} {b : Broker}
    (hmeets : Meets step (fun b event => b.Fresh event ∧ b.Current event) {} events)
    (hexec : exec step {} events = some b) {queue msgId : GoString}
    (houtstanding : Outstanding b.log queue msgId) :
    b.Attended queue msgId ∧
      ∃ object q, b.queues.lookup queue = some object ∧ b.objects[object]? = some q ∧
        q.worker ≠ .returned := by
  obtain ⟨hsane, hlocated⟩ := sane_located_run hmeets hexec
  obtain ⟨halive, rec, hrec, enq, henq, rfl, rfl, subName, hsub, hunacked⟩ := houtstanding
  obtain ⟨pending, hpending, hqueue, -, -⟩ :=
    waits_of_unacked hsane.book.ids hrec henq hsub hunacked halive
  obtain ⟨object, q, hlookup, hq, hmem⟩ := hlocated enq.msgId pending hpending
  rw [hqueue] at hlookup
  obtain ⟨msg, hmsg, hid⟩ := List.mem_map.mp hmem
  refine ⟨?_, object, q, hlookup, hq, fun hreturned => ?_⟩
  · rw [Queue.items, List.mem_append, List.mem_append] at hmsg
    rcases hmsg with (hadding | hhand) | hbuf
    · exact .inr ⟨q, List.mem_of_getElem? hq, msg, hadding, hid⟩
    · exact .inl ⟨object, hlookup, q, hq, msg, List.mem_append_right _ hhand, hid⟩
    · exact .inl ⟨object, hlookup, q, hq, msg, List.mem_append_left _ hbuf, hid⟩
  · obtain ⟨registered, hregistered, -, hopen⟩ :=
      hsane.wired.registered rec.queueName object hlookup
    rw [hq] at hregistered
    cases hregistered
    rw [hsane.wired.returned object q hq hreturned] at hopen
    contradiction

/-- A queue is deleted, its worker returns and the queue is created again, all while an
`Enqueue` call stands between its lookup and the coordinator. -/
def strandingTrace : List BrokerEvent :=
  [.createQueue (lit "q"), .register, .find (lit "q") (lit "hi"),
    .deleteQueue (lit "q"), .unregister, .work 0 .pop, .work 0 .exit,
    .createQueue (lit "q"), .register,
    .addSubscriber ⟨lit "a", lit "u", 3⟩ (lit "q"), .accept 0 (lit "1"), .add 0 0]

theorem recreated_queue_strands_message :
    ∃ b, exec step {} strandingTrace = some b ∧
      Outstanding b.log (lit "q") (lit "q-1") ∧ ¬ b.Attended (lit "q") (lit "q-1") := by
  have hrun : (exec step {} strandingTrace).map (fun b =>
      (decide (Outstanding b.log (lit "q") (lit "q-1")),
        decide (b.Attended (lit "q") (lit "q-1")))) = some (true, false) := by
    decide +kernel
  obtain ⟨b, hexec, hresult⟩ := Option.map_eq_some_iff.mp hrun
  simp only [Prod.mk.injEq, decide_eq_true_eq, decide_eq_false_iff_not] at hresult
  exact ⟨b, hexec, hresult⟩

/-- Two messages in one queue.  The call that comes second adds first, and the worker
holds the other message when the first is acked. -/
def attendedTrace : List BrokerEvent :=
  [.createQueue (lit "q"), .register, .addSubscriber ⟨lit "a", lit "u", 3⟩ (lit "q"),
    .find (lit "q") (lit "hi"), .find (lit "q") (lit "ho"), .accept 0 (lit "1"),
    .accept 0 (lit "2"), .add 0 0, .add 0 0, .work 0 .pop,
    .work 0 (.deliver .sorted fun _ => true),
    .work 0 .settle, .work 0 .finish, .work 0 .pop]

theorem overtaken_message_is_attended :
    ∃ b, exec step {} attendedTrace = some b ∧
      Outstanding b.log (lit "q") (lit "q-1") ∧ ¬ Outstanding b.log (lit "q") (lit "q-2") ∧
      b.Attended (lit "q") (lit "q-1") ∧
      ∃ object q, b.queues.lookup (lit "q") = some object ∧
        b.objects[object]? = some q ∧ q.worker ≠ .returned := by
  have hrun : (exec step {} attendedTrace).map (fun b =>
      (decide (Outstanding b.log (lit "q") (lit "q-1")),
        decide (Outstanding b.log (lit "q") (lit "q-2")))) = some (true, false) := by
    decide +kernel
  have hmeets : Meets step (fun b event => b.Fresh event ∧ b.Current event) {}
      attendedTrace := by
    decide +kernel
  obtain ⟨b, hexec, hresult⟩ := Option.map_eq_some_iff.mp hrun
  simp only [Prod.mk.injEq, decide_eq_true_eq, decide_eq_false_iff_not] at hresult
  obtain ⟨houtstanding, hacked⟩ := hresult
  exact ⟨b, hexec, houtstanding, hacked,
    accepted_message_is_attended hmeets hexec houtstanding⟩

end Broker

end SimonMQ.Durable
