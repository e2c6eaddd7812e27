import SimonMQ.Durable.Requests

namespace SimonMQ.Durable

open SimonMQ.Go
open SimonMQ.Go.Utf8
open SimonMQ.Attempts
open SimonMQ.Transition

/-! Every ack in the log has its cause, whatever restarts there were in between. -/

namespace Broker

def attempts (b : Broker) : BrokerEvent → List (Attempt Target)
  | .work object move =>
      match b.objects[object]? with
      | none => []
      | some q => q.attempts move
  | _ => []

structure Tallied (b : Broker) (lives : Nat) (history : List (Attempt Target)) : Prop where
  tracked : ∀ (i : Nat) (q : Queue), b.objects[i]? = some q → q.Tracked b.log lives history
  books : Books b.log lives history

namespace Tallied

variable {b next : Broker} {lives : Nat} {history : List (Attempt Target)}

theorem of_same (htallied : b.Tallied lives history) (hobjects : next.objects = b.objects)
    (hlog : next.log = b.log) : next.Tallied lives history := by
  refine ⟨?_, hlog ▸ htallied.books⟩
  rw [hobjects, hlog]
  exact htallied.tracked

theorem append (htallied : b.Tallied lives history) {rec : Record} {effect : Effect}
    (heffect : rec.effect = some effect) (hnone : effect.message = none) :
    (b.append rec).Tallied lives history where
  tracked := by
    intro i q hq
    refine (htallied.tracked i q hq).append_record heffect fun msgId hmessage => ?_
    rw [hnone] at hmessage
    contradiction
  books := by
    refine htallied.books.append heffect ?_ ?_
    · cases effect <;> simp_all [Effect.newIds, Effect.message]
    · rintro queue msgId subName rfl
      contradiction

theorem request (htallied : b.Tallied lives history) {request : Request}
    (hedits : ∀ effect, b.cat.Writes request effect → effect.message = none) :
    (b.request request).Tallied lives history := by
  rcases b.request_cases request with hsame | ⟨rec, effect, -, heffect, hwrites, hnext⟩
  · rw [hsame]
    exact htallied
  · rw [hnext]
    exact htallied.append heffect (hedits effect hwrites)

theorem setObject (htallied : b.Tallied lives history) {object : Nat} {q moved : Queue}
    (hq : b.objects[object]? = some q) (hmoved : moved.Tracked b.log lives history) :
    (b.setObject object moved).Tallied lives history where
  tracked := by
    intro i found hfound
    rw [getElem?_setObject hq] at hfound
    split_ifs at hfound
    · cases hfound
      exact hmoved
    · exact htallied.tracked i found hfound
  books := htallied.books

theorem replace (htallied : b.Tallied lives history) (hsane : b.Sane) {rec : Record}
    {effect : Effect} {msgId : GoString} {object : Nat} {q moved : Queue}
    (heffect : rec.effect = some effect) (hmessage : effect.message = some msgId)
    (hq : b.objects[object]? = some q)
    (hown : msgId ∈ q.ids ∨ msgId ∉ enqueuedIds b.log)
    (hmoved : moved.Tracked (b.log ++ [rec]) lives history)
    (hbooks : Books (b.log ++ [rec]) lives history) :
    ((b.append rec).setObject object moved).Tallied lives history where
  tracked := by
    intro i found hfound
    have hq' : (b.append rec).objects[object]? = some q := hq
    rw [getElem?_setObject hq'] at hfound
    split_ifs at hfound with hi
    · cases hfound
      exact hmoved
    · refine (htallied.tracked i found hfound).append_record heffect fun other hother hmem => ?_
      rw [hmessage, Option.some.injEq] at hother
      subst hother
      rcases hown with hhere | hunused
      · exact hsane.holdings.apart object i q found hq hfound (Ne.symm hi) _ hhere hmem
      · exact hunused (hsane.holdings.used i found hfound _ hmem)
  books := hbooks

theorem createQueue (htallied : b.Tallied lives history) (name : GoString) :
    (b.createQueue name).Tallied lives history := by
  unfold Broker.createQueue
  split_ifs
  · exact htallied
  · exact htallied
  · cases hrecord : b.cat.record (.createQueue name) with
    | error err => exact htallied
    | ok rec =>
        obtain ⟨effect, heffect, hwrites⟩ := Catalog.writes_of_record hrecord
        exact (htallied.append heffect (by cases hwrites; rfl)).of_same rfl rfl

theorem deleteQueue (htallied : b.Tallied lives history) (name : GoString) :
    (b.deleteQueue name).Tallied lives history := by
  unfold Broker.deleteQueue
  cases b.queues.lookup name with
  | none => exact htallied
  | some object =>
      cases hrecord : b.cat.record (.deleteQueue name) with
      | error err => exact htallied
      | ok rec =>
          obtain ⟨effect, heffect, hwrites⟩ := Catalog.writes_of_record hrecord
          exact (htallied.append heffect (by cases hwrites; rfl)).of_same rfl rfl

theorem register (htallied : b.Tallied lives history) (name : GoString) :
    (b.register name).Tallied lives history where
  tracked := by
    intro i q hq
    simp only [Broker.register, List.getElem?_append] at hq
    split_ifs at hq
    · exact htallied.tracked i q hq
    · rw [List.getElem?_singleton] at hq
      split_ifs at hq
      cases hq
      exact .newQueue name
  books := htallied.books

theorem unregister (htallied : b.Tallied lives history) (hsane : b.Sane) {name : GoString}
    {object : Nat} (hmu : b.mu = some (.deleting name object)) :
    (b.unregister name object).Tallied lives history := by
  obtain ⟨q, hq, -, -⟩ :=
    hsane.wired.registered name object (hsane.wired.deleting name object hmu)
  obtain ⟨hstored, hhand, hpolicies⟩ := htallied.tracked object q hq
  have hclosed : q.close.Tracked b.log lives history := ⟨hstored, hhand, hpolicies⟩
  rw [unregister_eq hq]
  exact (htallied.setObject hq hclosed).of_same rfl rfl

theorem accept (htallied : b.Tallied lives history) (hsane : b.Sane)
    (hadmits : ({} : Ledger).AdmitsAll b.log) {call : EnqueueCall} (hcall : call ∈ b.calls)
    {uuid : GoString} (hfresh : toValid (call.msgId uuid) ∉ enqueuedIds b.log) :
    (b.accept call uuid).Tallied lives history := by
  rcases hsane.accept_cases hcall uuid with
    ⟨-, hsame⟩ | ⟨subList, rec, q, -, -, -, heffect, hq, -, hnext⟩
  · rw [hsame]
    exact htallied
  · have htracked := htallied.tracked call.object q hq
    have hnew : (newQueueMsg (call.msgId uuid) call.payload subList ∅).Tracked []
        (b.log ++ [rec]) lives history := by
      refine .fresh rfl ⟨rec, by simp, _, (accepted_of_effect heffect).2, rfl, rfl⟩ ?_ ?_
      · intro found hfound subName hacked
        rcases List.mem_append.mp hfound with hold | hlast
        · exact absurd (mem_enqueuedIds_of_acked hadmits hold hacked) hfresh
        · rw [List.mem_singleton.mp hlast, acked_iff_effect, heffect] at hacked
          cases hacked
      · intro name policy _
        have hnone : outcomes (toValid (call.msgId uuid), name) history = [] := by
          refine outcomes_of_not_mem fun attempt hattempt hkey => hfresh ?_
          have hknown := htallied.books.known attempt hattempt
          rwa [hkey] at hknown
        change (outcomes (toValid (call.msgId uuid), name) history).length ≤ _
        rw [hnone]
        exact Nat.zero_le _
    have hother : ∀ msgId, Effect.message (.accept call.queueName
        (toValid (call.msgId uuid)) (toValid call.payload) subList) = some msgId →
        msgId ∉ q.ids := by
      rintro msgId hmessage hmem
      cases hmessage
      exact hfresh (hsane.holdings.used call.object q hq _ hmem)
    have hold := htracked.append_record heffect hother
    have hbooks := htallied.books.append heffect (by simpa [Effect.newIds] using hfresh)
      (by simp)
    rw [hnext]
    refine htallied.replace hsane heffect rfl hq (.inr hfresh) ⟨?_, hold.hand, hold.policies⟩
      hbooks
    intro msg hmsg
    rcases List.mem_cons.mp hmsg with rfl | hstored
    · exact hnew
    · exact hold.stored msg hstored

theorem add (htallied : b.Tallied lives history) {object index : Nat} {q : Queue}
    {msg : QueueMsg} (hq : b.objects[object]? = some q) (hmsg : q.adding[index]? = some msg) :
    (b.setObject object
      ({ q with adding := q.adding.eraseIdx index }.add msg)).Tallied lives history := by
  have htracked := htallied.tracked object q hq
  refine htallied.setObject hq ⟨fun other hother => ?_, htracked.hand, htracked.policies⟩
  have hadding := List.mem_of_getElem? hmsg
  have herased : ∀ other ∈ q.adding.eraseIdx index, other ∈ q.adding :=
    fun other hmem => List.mem_of_mem_eraseIdx hmem
  apply htracked.stored
  simp only [Queue.add, List.mem_append, List.mem_singleton] at hother ⊢
  rcases hother with hadded | hbuf | rfl
  · exact .inl (herased other hadded)
  · exact .inr hbuf
  · exact .inl hadding

theorem settle (htallied : b.Tallied lives history) (hsane : b.Sane) {object : Nat}
    {q : Queue} (hq : b.objects[object]? = some q) {policyByName : GoMap SubPolicy}
    {pass : QueueMsg.Pass} {result : DeliveryResult} {left : List DeliveryResult}
    (hworker : q.worker = .settling policyByName pass (result :: left))
    (hacked : (pass.msg.judge policyByName result).2 = true) :
    ((b.append
        ⟨0, .ack, q.name, encodeAck ⟨pass.msg.msgId, result.subName⟩⟩).setObject object
      { q with
        worker :=
          .settling policyByName (pass.take policyByName (fun _ => true) result) left }).Tallied
      lives history := by
  have hkept := hsane.holdings.kept object q hq
  have htracked := htallied.tracked object q hq
  have hheld : q.worker.hand = some pass.msg := by rw [hworker]; rfl
  have hitem : pass.msg ∈ q.items := by simp [Queue.items, hheld]
  have hdue : pass.Due (result :: left) := by
    have horderly := hkept.worker
    rwa [hworker] at horderly
  obtain ⟨hhand, hpolicies⟩ := htracked.settling hworker
  obtain ⟨hsub, hwaits⟩ := hdue.waiting result List.mem_cons_self
  obtain ⟨policy, hpolicy⟩ := Finmap.mem_iff.mp (Finmap.mem_keys.mp hsub)
  have heffect : Record.effect
      ⟨0, .ack, q.name, encodeAck ⟨pass.msg.msgId, result.subName⟩⟩ =
        some (.settle q.name pass.msg.logId result.subName) := by
    have hvalid := (hkept.items pass.msg hitem).snapshot.valid_name hsub
    simp [Record.effect, decodeAck_encodeAck, Ack.coerce, QueueMsg.logId,
      flatten_runes_of_valid hvalid]
  have hspent := hhand.spent hpolicy hwaits (hpolicies.trans hpolicy) hacked
  have haccepted : Accepted b.log (pass.msg.logId, result.subName) policy := by
    obtain ⟨rec, hrec, enq, henq, henqId, hsubs⟩ := hhand.enqueued
    exact ⟨rec, hrec, enq, henq, henqId, hsubs ▸ hpolicy⟩
  have hbooks := htallied.books.append heffect (by simp [Effect.newIds]) (by
    rintro queue msgId subName heq
    cases heq
    exact ⟨policy, haccepted, hspent⟩)
  refine htallied.replace hsane heffect rfl hq (.inl (List.mem_map_of_mem hitem))
    (htracked.take hworker (fun msg hmsg => ?_) (hhand.take_acked heffect hacked)) hbooks
  refine (htracked.stored msg hmsg).append_record heffect fun hmessage => ?_
  exact Queue.Tracked.stored_ne_hand hkept hheld hmsg (Option.some.inj hmessage).symm

theorem work (htallied : b.Tallied lives history) (hsane : b.Sane) {object : Nat}
    {move : Move} (hstep : b.step (.work object move) = some next) :
    next.Tallied lives (history ++ b.attempts (.work object move)) := by
  rw [step] at hstep
  split at hstep
  · contradiction
  · rename_i q hq
    have hattempts : b.attempts (.work object move) = q.attempts move := by
      simp only [attempts, hq]
    have hkept := hsane.holdings.kept object q hq
    have htracked := htallied.tracked object q hq
    rw [hattempts]
    split at hstep
    · contradiction
    · rename_i moved hmove
      cases hstep
      obtain ⟨-, hquiet⟩ | ⟨_, _, _, _, _, _, _, hrequest, _⟩ := Queue.move_cases hmove
      · refine ⟨fun i found hfound => ?_,
          htallied.books.move hsane.book.ids htracked hkept move⟩
        rw [getElem?_setObject hq] at hfound
        split_ifs at hfound with hi
        · cases hfound
          exact htracked.quiet hkept hquiet
        · refine (htallied.tracked i found hfound).append_history
            fun attempt hattempt hmem => ?_
          exact hsane.holdings.apart object i q found hq hfound (Ne.symm hi) _
            (Queue.mem_ids_of_attempts hattempt) hmem
      · contradiction
    · rename_i moved request hmove
      cases hstep
      obtain ⟨hrequest, -⟩ |
        ⟨policyByName, pass, result, left, rfl, hworker, hacked, hrequest, rfl⟩ :=
          Queue.move_cases hmove
      · contradiction
      · cases hrequest
        simp only [Queue.attempts, List.append_nil]
        exact htallied.settle hsane hq hworker hacked

theorem step {event : BrokerEvent} (htallied : b.Tallied lives history) (hsane : b.Sane)
    (hadmits : ({} : Ledger).AdmitsAll b.log) (hfresh : b.Fresh event)
    (hstep : b.step event = some next) :
    next.Tallied lives (history ++ b.attempts event) := by
  by_cases hwork : ∃ object move, event = .work object move
  · obtain ⟨object, move, rfl⟩ := hwork
    exact htallied.work hsane hstep
  · have hnone : b.attempts event = [] := by
      cases event with
      | work object move => exact absurd ⟨object, move, rfl⟩ hwork
      | _ => rfl
    rw [hnone, List.append_nil]
    cases steps_of_step hstep with
    | createQueue hmu name => exact htallied.createQueue name
    | register hmu => exact htallied.register _
    | deleteQueue hmu name => exact htallied.deleteQueue name
    | unregister hmu => exact htallied.unregister hsane hmu
    | editPolicies hrequest =>
        exact htallied.request fun effect hwrites =>
          (edits_of_policyRequest hrequest hwrites).1
    | find queueName payload =>
        unfold Broker.find
        split <;> exact htallied.of_same rfl rfl
    | @accept index call hcall uuid =>
        have hunused : toValid (call.msgId uuid) ∉ enqueuedIds b.log :=
          hfresh _ (by simp [newId, hcall])
        exact (htallied.accept hsane hadmits (List.mem_of_getElem? hcall) hunused).of_same
          rfl rfl
    | add hq hmsg => exact htallied.add hq hmsg
    | work hstep => exact absurd ⟨_, _, rfl⟩ hwork

theorem restart (htallied : b.Tallied lives history) (hsane : b.Sane)
    (hadmits : ({} : Ledger).AdmitsAll b.log) {cat : Catalog}
    (hresumes : next.Resumes cat b.log) : next.Tallied (lives + 1) history := by
  refine ⟨fun i q hq => ?_, hresumes.log_eq ▸ htallied.books.restart⟩
  have hlt := (List.getElem?_eq_some_iff.mp hq).1
  obtain ⟨name, hlookup⟩ := hresumes.registered i hlt
  obtain ⟨buf, hbuf, -, houtstanding, hread⟩ := hresumes.objects name i hlookup
  rw [hq] at hbuf
  cases hbuf
  refine ⟨fun msg hmsg => ?_, fun msg hmsg => by contradiction, trivial⟩
  have hmem : msg ∈ buf := by simpa [resumedQueue, newQueue] using hmsg
  obtain ⟨⟨rec, hrec, -, henq⟩, hacked, hretry⟩ := hread msg hmem
  have hid : msg.logId = msg.msgId := by
    obtain ⟨pending, hpending, -⟩ := (outstanding_iff_pending hsane.book.ids hadmits).mp
      ((houtstanding msg.msgId).mp (List.mem_map_of_mem hmem))
    exact flatten_runes_of_valid (hsane.book.snapshots msg.msgId pending hpending).1
  rw [hresumes.log_eq]
  refine .fresh hretry ⟨rec, hrec, _, henq, hid.symm, rfl⟩ ?_ ?_
  · intro found hfound subName hack
    rw [hid] at hack
    exact (hacked subName).mpr ⟨found, hfound, hack⟩
  · intro subName policy hpolicy
    exact htallied.books.bounded _ policy ⟨rec, hrec, _, henq, hid.symm, hpolicy⟩

end Tallied

/-- What can be seen of a service from outside. -/
inductive Seen
  | restarted
  | sent (attempt : Attempt Target)

def Seen.attempt : Seen → Option (Attempt Target)
  | .restarted => none
  | .sent attempt => some attempt

def seen (b : Broker) : ServiceEvent → List Seen
  | .live event => (b.attempts event).map .sent
  | .restart _ => [.restarted]

def sends (seen : List Seen) : List (Attempt Target) := seen.filterMap Seen.attempt

def restarts (seen : List Seen) : Nat := seen.countP fun sight => sight.attempt.isNone

variable {b next : Broker}

theorem sends_live (before : List Seen) (event : BrokerEvent) :
    sends (before ++ b.seen (.live event)) = sends before ++ b.attempts event := by
  have hsent : ∀ attempts : List (Attempt Target),
      (attempts.map Seen.sent).filterMap Seen.attempt = attempts := by
    intro attempts
    rw [List.filterMap_map]
    exact List.filterMap_some
  rw [sends, List.filterMap_append, seen, hsent, sends]

theorem restarts_live (before : List Seen) (event : BrokerEvent) :
    restarts (before ++ b.seen (.live event)) = restarts before := by
  rw [restarts, List.countP_append, seen, restarts]
  simp [Seen.attempt, Function.comp_def]

theorem tallied_run {events : List ServiceEvent} {b : Broker}
    (hmeets : Meets serve Orderly {} events) (hexec : exec serve {} events = some b) :
    b.Sane ∧ ({} : Ledger).AdmitsAll b.log ∧ b.InStep ∧
      b.Tallied (restarts (trace serve seen {} events)) (sends (trace serve seen {} events)) := by
  have hstart : ({} : Broker).Sane ∧ ({} : Ledger).AdmitsAll ({} : Broker).log ∧
      ({} : Broker).InStep ∧ ({} : Broker).Tallied (restarts []) (sends []) := by
    refine ⟨sane_initial, trivial, inStep_initial, by simp, by simp, ?_, by simp [sends]⟩
    rintro target policy ⟨rec, hrec, -⟩
    contradiction
  refine exec_traces_invariant (P := fun b seen => b.Sane ∧ ({} : Ledger).AdmitsAll b.log ∧
    b.InStep ∧ b.Tallied (restarts seen) (sends seen)) ?_ hstart hmeets hexec
  rintro b event next before ⟨hsane, hadmits, hinStep, htallied⟩ horderly hstep
  cases event with
  | live event =>
      rw [sends_live, restarts_live]
      exact ⟨hsane.step horderly.1 hstep,
        hsane.admits_step hadmits horderly.1 horderly.2.1 hstep, hinStep.step hsane hstep,
        htallied.step hsane hadmits horderly.1 hstep⟩
  | restart startup =>
      obtain ⟨replayed, hreflects, rfl⟩ := serve_restart horderly hadmits hstep
      obtain ⟨hrestored, hlog⟩ := hsane.restoreWAL hreflects startup.order
      obtain ⟨hresumes, hinStep'⟩ :=
        resumes_restoreWAL hsane hinStep hadmits hreflects startup.order
      have hcount : restarts (before ++ b.seen (.restart startup)) = restarts before + 1 := by
        simp [restarts, seen, Seen.attempt]
      have hsends : sends (before ++ b.seen (.restart startup)) = sends before := by
        simp [sends, seen, Seen.attempt]
      rw [hcount, hsends]
      exact ⟨hrestored, by rwa [hlog], hinStep', htallied.restart hsane hadmits hresumes⟩

/-- At least once, over crashes and restarts: as long as the queue stays, a subscriber of
an accepted message has answered a request, or the allowed number of them failed, or
whichever broker comes up next has the message in its queue and still owes it to them. -/
theorem kept_until_settled_across_restarts {events : List ServiceEvent} {b : Broker}
    (hmeets : Meets serve Orderly {} events) (hexec : exec serve {} events = some b)
    {rec : Record} (hrec : rec ∈ b.log) {enq : Enqueue} (henq : rec.enqueued = some enq)
    {subName : GoString} {policy : SubPolicy} (hsub : enq.subList.lookup subName = some policy)
    (halive : survives rec.queueName enq.msgId b.log = true) :
    Spent policy (sends (trace serve seen {} events)) (enq.msgId, subName) ∨
      ∀ startup : Startup, startup.Finds b.log → ∃ next object q msg,
        (∃ enough, ∀ fuel, enough ≤ fuel →
          b.serve (.restart { startup with fuel }) = some next) ∧
        next.queues.lookup rec.queueName = some object ∧ next.objects[object]? = some q ∧
        q.isClosed = false ∧ q.hasWork = true ∧ msg ∈ q.buf ∧ msg.msgId = enq.msgId ∧
        msg.payload = enq.msgContent ∧ msg.subPolicySnapshot = enq.subList ∧
        subName ∉ msg.ackedSubs := by
  obtain ⟨hsane, hadmits, -, htallied⟩ := tallied_run hmeets hexec
  have haccepted : Accepted b.log (enq.msgId, subName) policy :=
    ⟨rec, hrec, enq, henq, rfl, hsub⟩
  by_cases hacked : ∃ other ∈ b.log, other.acked = some ⟨enq.msgId, subName⟩
  · obtain ⟨other, hother, hack⟩ := hacked
    obtain ⟨found, hfound, hspent⟩ := htallied.books.spent other hother _ _ hack
    rw [haccepted.unique hsane.book.ids hfound]
    exact .inl hspent
  · refine .inr fun startup hfinds => ?_
    have hunacked : ∀ other ∈ b.log, other.acked ≠ some ⟨enq.msgId, subName⟩ :=
      fun other hother hack => hacked ⟨other, hother, hack⟩
    have houtstanding : Outstanding b.log rec.queueName enq.msgId :=
      ⟨halive, rec, hrec, enq, henq, rfl, rfl, subName,
        Finmap.mem_keys.mpr (Finmap.mem_iff.mpr ⟨policy, hsub⟩), hunacked⟩
    obtain ⟨next, hresumes, hnext⟩ := exists_resumes hmeets hexec hfinds
    obtain ⟨object, hlookup⟩ := Finmap.mem_iff.mp (hresumes.placed _ _ houtstanding)
    obtain ⟨buf, hobject, -, hmem, hread⟩ := hresumes.objects _ object hlookup
    obtain ⟨msg, hmsg, hid⟩ := List.mem_map.mp ((hmem enq.msgId).mpr houtstanding)
    obtain ⟨⟨other, hother, -, hfound⟩, hacks, -⟩ := hread msg hmsg
    have hsame := enqueued_unique hsane.book.ids hother hrec hfound henq hid
    refine ⟨next, object, _, msg, hnext, hlookup, hobject, rfl, ?_, hmsg, hid,
      congrArg Enqueue.msgContent hsame, congrArg Enqueue.subList hsame, fun hack => ?_⟩
    · cases buf with
      | nil => contradiction
      | cons first rest => rfl
    · obtain ⟨found, hfound, hack⟩ := (hacks subName).mp hack
      exact hunacked found hfound (hid ▸ hack)

/-- The first broker has counted one failure when it is stopped, the second has made
the next request. -/
def unanswered : List ServiceEvent :=
  [.live (.createQueue (lit "q")), .live .register,
    .live (.addSubscriber ⟨lit "a", lit "u", 3⟩ (lit "q")),
    .live (.find (lit "q") (lit "hi")), .live (.accept 0 (lit "1")), .live (.add 0 0),
    .live (.work 0 .pop), .live (.work 0 (.deliver .sorted fun _ => false)),
    .live (.work 0 .settle), .restart (startOn (firstStart ++ callsBefore)),
    .live (.work 0 .pop),
    .live (.work 0 (.deliver .sorted fun _ => false))]

set_option maxRecDepth 20000 in
theorem unanswered_message_is_kept :
    ∃ b rec enq, exec serve {} unanswered = some b ∧ rec ∈ b.log ∧
      rec.enqueued = some enq ∧ rec.queueName = lit "q" ∧ enq.msgContent = lit "hi" ∧
      ¬ Spent ⟨lit "a", lit "u", 3⟩ (sends (trace serve seen {} unanswered))
        (enq.msgId, lit "a") ∧
      ∃ next object q msg,
        (∃ enough, ∀ fuel, enough ≤ fuel → b.serve
          (.restart { startOn (firstStart ++ callsBefore) with fuel }) = some next) ∧
        next.queues.lookup rec.queueName = some object ∧ next.objects[object]? = some q ∧
        q.isClosed = false ∧ q.hasWork = true ∧ msg ∈ q.buf ∧ msg.msgId = enq.msgId ∧
        msg.payload = enq.msgContent ∧ msg.subPolicySnapshot = enq.subList ∧
        lit "a" ∉ msg.ackedSubs := by
  have hmeets : Meets serve Orderly {} unanswered := by
    decide +kernel
  have hrun : (exec serve {} unanswered).map (fun b =>
      decide (∃ rec ∈ b.log, ∃ enq ∈ rec.enqueued, rec.queueName = lit "q" ∧
        enq.msgContent = lit "hi" ∧
        enq.subList.lookup (lit "a") = some ⟨lit "a", lit "u", 3⟩ ∧
        survives rec.queueName enq.msgId b.log = true ∧
        ¬ Spent ⟨lit "a", lit "u", 3⟩ (sends (trace serve seen {} unanswered))
          (enq.msgId, lit "a")) &&
        decide ((startOn (firstStart ++ callsBefore)).Finds b.log)) = some true := by
    decide +kernel
  obtain ⟨b, hexec, hresult⟩ := Option.map_eq_some_iff.mp hrun
  rw [Bool.and_eq_true, decide_eq_true_eq, decide_eq_true_eq] at hresult
  obtain ⟨⟨rec, hrec, enq, henq, hqueue, hcontent, hsub, halive, hunspent⟩, hfinds⟩ :=
    hresult
  refine ⟨b, rec, enq, hexec, hrec, henq, hqueue, hcontent, hunspent, ?_⟩
  exact (kept_until_settled_across_restarts hmeets hexec hrec henq hsub halive).resolve_left
    hunspent _ hfinds

/-- Every broker sends to a subscriber at most as often as the policy allows, and at
least once where it allows nothing; and nobody is sent to who has acked, or was not
subscribed when the message was accepted. -/
theorem requests_bounded_across_restarts {events : List ServiceEvent} {b : Broker}
    (hmeets : Meets serve Orderly {} events) (hexec : exec serve {} events = some b) :
    (∀ target policy, Accepted b.log target policy →
      (outcomes target (sends (trace serve seen {} events))).length ≤
        (restarts (trace serve seen {} events) + 1) * allowance policy) ∧
      ∀ event, ∀ attempt ∈ b.attempts event,
        (∃ policy, Accepted b.log attempt.key policy) ∧
          ∀ rec ∈ b.log, rec.acked ≠ some ⟨attempt.key.1, attempt.key.2⟩ := by
  obtain ⟨hsane, -, -, htallied⟩ := tallied_run hmeets hexec
  refine ⟨htallied.books.bounded, fun event attempt hattempt => ?_⟩
  unfold attempts at hattempt
  split at hattempt
  · split at hattempt
    · contradiction
    · rename_i object move _ q hq
      exact (htallied.tracked object q hq).owed (hsane.holdings.kept object q hq) hattempt
  · contradiction

set_option maxRecDepth 20000 in
theorem unanswered_requests_bounded :
    ∃ b, exec serve {} unanswered = some b ∧
      Accepted b.log (lit "q-1", lit "a") ⟨lit "a", lit "u", 3⟩ ∧
      restarts (trace serve seen {} unanswered) = 1 ∧
      outcomes (lit "q-1", lit "a") (sends (trace serve seen {} unanswered)) =
        [false, false] ∧
      (outcomes (lit "q-1", lit "a") (sends (trace serve seen {} unanswered))).length ≤
        (1 + 1) * 3 := by
  have hmeets : Meets serve Orderly {} unanswered := by
    decide +kernel
  have hseen : restarts (trace serve seen {} unanswered) = 1 ∧
      outcomes (lit "q-1", lit "a") (sends (trace serve seen {} unanswered)) =
        [false, false] := by
    decide +kernel
  have hrun : (exec serve {} unanswered).map (fun b =>
      decide (Accepted b.log (lit "q-1", lit "a") ⟨lit "a", lit "u", 3⟩)) = some true := by
    decide +kernel
  obtain ⟨b, hexec, haccepted⟩ := Option.map_eq_some_iff.mp hrun
  rw [decide_eq_true_eq] at haccepted
  have hbounded := (requests_bounded_across_restarts hmeets hexec).1 _ _ haccepted
  rw [hseen.1] at hbounded
  exact ⟨b, hexec, haccepted, hseen.1, hseen.2, hbounded⟩

end Broker

end SimonMQ.Durable
