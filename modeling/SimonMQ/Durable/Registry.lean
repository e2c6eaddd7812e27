import SimonMQ.Durable.Custody

namespace SimonMQ.Durable

open SimonMQ.Go
open SimonMQ.Go.Utf8
open SimonMQ.Transition

/-! All queue objects together. -/

theorem Queue.Kept.append {q : Queue} {log : List Record} {rec : Record} {effect : Effect}
    (hkept : q.Kept log) (heffect : rec.effect = some effect)
    (hother : ∀ msgId, effect.message = some msgId → msgId ∉ q.ids) :
    q.Kept (log ++ [rec]) where
  items := fun msg hmsg => (hkept.items msg hmsg).append heffect
    fun hmessage => hother msg.logId hmessage (List.mem_map_of_mem hmsg)
  ids := hkept.ids
  worker := hkept.worker

/-- The objects hold what the log says, every message once. -/
structure Holdings (objects : List Queue) (log : List Record) : Prop where
  kept : ∀ (i : Nat) (q : Queue), objects[i]? = some q → q.Kept log
  used : ∀ (i : Nat) (q : Queue), objects[i]? = some q → ∀ msgId ∈ q.ids,
    msgId ∈ enqueuedIds log
  apart : ∀ (i j : Nat) (q other : Queue), objects[i]? = some q → objects[j]? = some other →
    i ≠ j → ∀ msgId ∈ q.ids, msgId ∉ other.ids

namespace Holdings

variable {objects : List Queue} {log : List Record} {rec : Record} {effect : Effect}
  {object : Nat} {q next : Queue}

theorem nil (log : List Record) : Holdings [] log where
  kept := by simp
  used := by simp
  apart := by simp

theorem append (hold : Holdings objects log) (heffect : rec.effect = some effect)
    (hnone : effect.message = none) : Holdings objects (log ++ [rec]) where
  kept := by
    intro i q hq
    refine (hold.kept i q hq).append heffect fun msgId hmessage => ?_
    rw [hnone] at hmessage
    contradiction
  used := by
    intro i q hq msgId hid
    rw [enqueuedIds_concat log heffect]
    exact List.mem_append_left _ (hold.used i q hq msgId hid)
  apart := hold.apart

theorem concat (hold : Holdings objects log) (name : GoString) :
    Holdings (objects ++ [newQueue name]) log := by
  have hfind : ∀ (i : Nat) (q : Queue), (objects ++ [newQueue name])[i]? = some q →
      objects[i]? = some q ∨ q = newQueue name := by
    intro i q hq
    rw [List.getElem?_append] at hq
    split_ifs at hq
    · exact .inl hq
    · rw [List.getElem?_singleton] at hq
      split_ifs at hq
      exact .inr (Option.some.inj hq).symm
  have hids : (newQueue name).ids = [] := rfl
  refine ⟨fun i q hq => ?_, fun i q hq => ?_, fun i j q other hq hother hne => ?_⟩
  · rcases hfind i q hq with hold' | rfl
    · exact hold.kept i q hold'
    · exact ⟨by simp [Queue.items, newQueue, WorkerPhase.hand], by simp [hids], trivial⟩
  · rcases hfind i q hq with hold' | rfl
    · exact hold.used i q hold'
    · simp [hids]
  · rcases hfind i q hq with hold' | rfl
    · rcases hfind j other hother with hold'' | rfl
      · exact hold.apart i j q other hold' hold'' hne
      · simp [hids]
    · simp [hids]

theorem of_set {longer : List Record} (hold : Holdings objects log)
    (hgrows : enqueuedIds log ⊆ enqueuedIds longer) (hnext : next.Kept longer)
    (hused : ∀ msgId ∈ next.ids, msgId ∈ enqueuedIds longer)
    (hothers : ∀ (i : Nat) (other : Queue), i ≠ object → objects[i]? = some other →
      other.Kept longer ∧ ∀ msgId ∈ next.ids, msgId ∉ other.ids) :
    Holdings (objects.set object next) longer := by
  have hfind : ∀ (i : Nat) (found : Queue), (objects.set object next)[i]? = some found →
      i = object ∧ found = next ∨ i ≠ object ∧ objects[i]? = some found := by
    intro i found hfound
    rw [List.getElem?_set] at hfound
    split_ifs at hfound with heq hlt
    · exact .inl ⟨heq.symm, (Option.some.inj hfound).symm⟩
    · exact .inr ⟨fun hsame => heq hsame.symm, hfound⟩
  refine ⟨fun i found hfound => ?_, fun i found hfound => ?_, ?_⟩
  · rcases hfind i found hfound with ⟨_, rfl⟩ | ⟨hne, hother⟩
    · exact hnext
    · exact (hothers i found hne hother).1
  · rcases hfind i found hfound with ⟨_, rfl⟩ | ⟨_, hother⟩
    · exact hused
    · exact fun msgId hmem => hgrows (hold.used i found hother msgId hmem)
  · intro i j found other hfound hother hne msgId hmem hmem'
    rcases hfind i found hfound with ⟨hi, hi'⟩ | ⟨hi, hi'⟩ <;>
      rcases hfind j other hother with ⟨hj, hj'⟩ | ⟨hj, hj'⟩
    · exact hne (hi.trans hj.symm)
    · exact (hothers j other hj hj').2 msgId (hi' ▸ hmem) hmem'
    · exact (hothers i found hi hi').2 msgId (hj' ▸ hmem') hmem
    · exact hold.apart i j found other hi' hj' hne msgId hmem hmem'

theorem set (hold : Holdings objects log) (hq : objects[object]? = some q)
    (hnext : next.Kept log) (hids : next.ids ⊆ q.ids) :
    Holdings (objects.set object next) log := by
  refine hold.of_set (List.Subset.refl _) hnext ?_ fun i other hne hother => ?_
  · exact fun msgId hmem => hold.used object q hq msgId (hids hmem)
  · exact ⟨hold.kept i other hother, fun msgId hmem =>
      hold.apart object i q other hq hother hne.symm msgId (hids hmem)⟩

theorem replace (hold : Holdings objects log) (hq : objects[object]? = some q)
    (heffect : rec.effect = some effect) (hnext : next.Kept (log ++ [rec]))
    (hnew : ∀ msgId ∈ effect.newIds, msgId ∉ enqueuedIds log)
    (hids : ∀ msgId ∈ next.ids, msgId ∈ q.ids ∨ msgId ∈ effect.newIds)
    (hown : ∀ msgId, effect.message = some msgId →
      msgId ∈ q.ids ∨ msgId ∈ effect.newIds) :
    Holdings (objects.set object next) (log ++ [rec]) := by
  have hothers : ∀ (i : Nat) (other : Queue), i ≠ object → objects[i]? = some other →
      ∀ msgId, msgId ∈ q.ids ∨ msgId ∈ effect.newIds → msgId ∉ other.ids := by
    intro i other hne hother msgId hmsg hmem
    rcases hmsg with hmine | hfresh
    · exact hold.apart object i q other hq hother hne.symm msgId hmine hmem
    · exact hnew msgId hfresh (hold.used i other hother msgId hmem)
  have hlog := enqueuedIds_concat log heffect
  refine hold.of_set ?_ hnext (fun msgId hmem => ?_) fun i other hne hother => ⟨?_, ?_⟩
  · rw [hlog]
    exact List.subset_append_left _ _
  · rw [hlog, List.mem_append]
    exact (hids msgId hmem).imp (hold.used object q hq msgId) id
  · exact (hold.kept i other hother).append heffect fun msgId hmessage =>
      hothers i other hne hother msgId (hown msgId hmessage)
  · exact fun msgId hmem => hothers i other hne hother msgId (hids msgId hmem)

end Holdings

/-! The steps of one object. -/

theorem Queue.items_add (q : Queue) (msg : QueueMsg) :
    (q.add msg).items.Perm (msg :: q.items) := by
  have hlast : (q.items ++ [msg]).Perm ([msg] ++ q.items) := List.perm_append_comm
  rwa [items, List.append_assoc _ q.buf] at hlast

theorem Queue.items_add_perm {q : Queue} {index : Nat} {msg : QueueMsg}
    (hmsg : q.adding[index]? = some msg) :
    ({ q with adding := q.adding.eraseIdx index }.add msg).items.Perm q.items := by
  obtain ⟨hlt, rfl⟩ := List.getElem?_eq_some_iff.mp hmsg
  have hadding := List.getElem_cons_eraseIdx_perm hlt
  exact (items_add _ _).trans ((hadding.append_right q.worker.hand.toList).append_right q.buf)

namespace Queue.Moved

variable {q next : Queue} {log : List Record}

theorem ids_nodup {request : Option Request} (hmoved : q.Moved next request)
    (hkept : q.Kept log) : next.ids.Nodup := by
  obtain ⟨between, hperm, hsublist⟩ := hmoved.ids
  exact hperm.nodup_iff.mp (hkept.ids.sublist hsublist)

theorem kept_quiet (hmoved : q.Moved next none) (hkept : q.Kept log) : next.Kept log where
  items := by
    intro msg hmsg
    cases hmoved.outcome with
    | quiet hitems =>
        obtain ⟨old, hold, hsame⟩ := hitems msg hmsg
        rw [hmoved.name]
        exact (hkept.items old hold).of_same hsame
  ids := hmoved.ids_nodup hkept
  worker := hmoved.worker

theorem kept_acked {hand : QueueMsg} {subName : GoString} {rec : Record}
    (hmoved : q.Moved next (some (.ack q.name hand.msgId subName)))
    (hkept : q.Kept log) (heffect : rec.effect = some (.settle q.name hand.logId subName)) :
    next.Kept (log ++ [rec]) where
  items := by
    intro msg hmsg
    rw [hmoved.name]
    have houtcome := hmoved.outcome
    generalize hrequest : (Request.ack q.name hand.msgId subName) = request at houtcome
    cases houtcome with
    | @acked found other hfound hsub hwaits hitems =>
        obtain ⟨_, hid, rfl⟩ := Request.ack.inj hrequest
        have hlogId : hand.logId = found.logId := congrArg toValid hid
        rw [hlogId] at heffect
        rcases hitems msg hmsg with ⟨hold, hother⟩ | hsame
        · refine (hkept.items msg hold).append heffect fun hmessage => hother ?_
          exact (Option.some.inj hmessage).symm
        · exact ((hkept.items found hfound).markAcked heffect).of_same hsame
  ids := hmoved.ids_nodup hkept
  worker := hmoved.worker

end Queue.Moved

/-! The registry. -/

namespace Broker

structure Wired (b : Broker) : Prop where
  registered : ∀ name object, b.queues.lookup name = some object →
    ∃ q, b.objects[object]? = some q ∧ q.name = name ∧ q.isClosed = false
  calls : ∀ call ∈ b.calls, ∃ q, b.objects[call.object]? = some q ∧ q.name = call.queueName
  creating : ∀ name, b.mu = some (.creating name) → b.queues.lookup name = none
  deleting : ∀ name object, b.mu = some (.deleting name object) →
    b.queues.lookup name = some object
  returned : ∀ (i : Nat) (q : Queue), b.objects[i]? = some q → q.worker = .returned →
    q.isClosed = true

structure Sane (b : Broker) : Prop where
  book : Bookkeeping b.cat b.log
  holdings : Holdings b.objects b.log
  wired : b.Wired
  /-- a queue leaves the catalog before it leaves the registry -/
  closing : ∀ name object, b.mu = some (.deleting name object) → name ∉ b.cat

theorem sane_initial : Sane {} where
  book := bookkeeping_empty
  holdings := .nil []
  wired := ⟨by simp, by simp, by simp, by simp, by simp⟩
  closing := by simp

variable {b next : Broker}

theorem getElem?_setObject {object : Nat} {q : Queue} (hq : b.objects[object]? = some q)
    (moved : Queue) (i : Nat) :
    (b.setObject object moved).objects[i]? =
      if i = object then some moved else b.objects[i]? := by
  have hlt : object < b.objects.length := (List.getElem?_eq_some_iff.mp hq).1
  by_cases hi : i = object
  · subst hi
    simp [Broker.setObject, hlt]
  · simp [Broker.setObject, hi, Ne.symm hi]

theorem Wired.setObject (hwired : b.Wired) {object : Nat} {q moved : Queue}
    (hq : b.objects[object]? = some q) (hname : moved.name = q.name)
    (hclosed : moved.isClosed = q.isClosed)
    (hreturned : moved.worker = .returned → moved.isClosed = true) :
    (b.setObject object moved).Wired := by
  have hfind : ∀ (i : Nat) (found : Queue), b.objects[i]? = some found →
      ∃ other, (b.setObject object moved).objects[i]? = some other ∧
        other.name = found.name ∧ other.isClosed = found.isClosed := by
    intro i found hfound
    rw [getElem?_setObject hq]
    split_ifs with hi
    · subst hi
      rw [hq] at hfound
      cases hfound
      exact ⟨moved, rfl, hname, hclosed⟩
    · exact ⟨found, hfound, rfl, rfl⟩
  refine ⟨fun name i hlookup => ?_, fun call hcall => ?_, hwired.creating, hwired.deleting,
    fun i found hfound => ?_⟩
  · obtain ⟨found, hfound, hfoundName, hopen⟩ := hwired.registered name i hlookup
    obtain ⟨other, hother, hsameName, hsameClosed⟩ := hfind i found hfound
    exact ⟨other, hother, hsameName.trans hfoundName, hsameClosed.trans hopen⟩
  · obtain ⟨found, hfound, hfoundName⟩ := hwired.calls call hcall
    obtain ⟨other, hother, hsameName, _⟩ := hfind call.object found hfound
    exact ⟨other, hother, hsameName.trans hfoundName⟩
  · rw [getElem?_setObject hq] at hfound
    split_ifs at hfound
    · cases hfound
      exact hreturned
    · exact hwired.returned i found hfound

theorem request_cases (b : Broker) (request : Request) :
    b.request request = b ∨ ∃ rec effect, b.cat.record request = .ok rec ∧
      rec.effect = some effect ∧ b.cat.Writes request effect ∧
      b.request request = b.append rec := by
  unfold Broker.request
  cases hrecord : b.cat.record request with
  | error err => exact .inl rfl
  | ok rec =>
      obtain ⟨effect, heffect, hwrites⟩ := Catalog.writes_of_record hrecord
      exact .inr ⟨rec, effect, rfl, heffect, hwrites, rfl⟩

/-- The coordinator call of a step that edits a subscriber. -/
def policyRequest : BrokerEvent → Option Request
  | .addSubscriber policy queueName | .updateSubscriber policy queueName =>
      some (.updateSubPolicy queueName policy)
  | .removeSubscriber subName queueName => some (.deleteSubPolicy queueName subName)
  | _ => none

theorem edits_of_policyRequest {event : BrokerEvent} {request : Request} {cat : Catalog}
    {effect : Effect} (hrequest : policyRequest event = some request)
    (hwrites : cat.Writes request effect) :
    effect.message = none ∧ ∀ name, effect ≠ .create name ∧ effect ≠ .delete name := by
  cases event with
  | addSubscriber | updateSubscriber | removeSubscriber =>
      cases hrequest
      cases hwrites
      simp [Effect.message]
  | _ => contradiction

/-- Everything that a step of the broker can be. -/
inductive Steps (b : Broker) : BrokerEvent → Broker → Prop
  | createQueue (hmu : b.mu = none) (name : GoString) :
      b.Steps (.createQueue name) (b.createQueue name)
  | register {name : GoString} (hmu : b.mu = some (.creating name)) :
      b.Steps .register (b.register name)
  | deleteQueue (hmu : b.mu = none) (name : GoString) :
      b.Steps (.deleteQueue name) (b.deleteQueue name)
  | unregister {name : GoString} {object : Nat} (hmu : b.mu = some (.deleting name object)) :
      b.Steps .unregister (b.unregister name object)
  | editPolicies {event : BrokerEvent} {request : Request}
      (hrequest : policyRequest event = some request) : b.Steps event (b.request request)
  | find (queueName payload : GoString) :
      b.Steps (.find queueName payload) (b.find queueName payload)
  | accept {index : Nat} {call : EnqueueCall} (hcall : b.calls[index]? = some call)
      (uuid : GoString) :
      b.Steps (.accept index uuid)
        { b.accept call uuid with calls := b.calls.eraseIdx index }
  | add {object index : Nat} {q : Queue} {msg : QueueMsg}
      (hq : b.objects[object]? = some q) (hmsg : q.adding[index]? = some msg) :
      b.Steps (.add object index)
        (b.setObject object ({ q with adding := q.adding.eraseIdx index }.add msg))
  | work {object : Nat} {move : Move} {next : Broker}
      (hstep : b.step (.work object move) = some next) : b.Steps (.work object move) next

theorem steps_of_step {event : BrokerEvent} (hstep : b.step event = some next) :
    b.Steps event next := by
  cases event with
  | createQueue name =>
      rw [step] at hstep
      split at hstep
      · contradiction
      · rename_i hmu
        cases hstep
        exact .createQueue hmu name
  | register =>
      rw [step] at hstep
      split at hstep
      · rename_i hmu
        cases hstep
        exact .register hmu
      · contradiction
  | deleteQueue name =>
      rw [step] at hstep
      split at hstep
      · contradiction
      · rename_i hmu
        cases hstep
        exact .deleteQueue hmu name
  | unregister =>
      rw [step] at hstep
      split at hstep
      · rename_i hmu
        cases hstep
        exact .unregister hmu
      · contradiction
  | addSubscriber | updateSubscriber | removeSubscriber =>
      cases hstep
      exact .editPolicies rfl
  | find queueName payload =>
      rw [step] at hstep
      split at hstep
      · contradiction
      · cases hstep
        exact .find queueName payload
  | accept index uuid =>
      rw [step] at hstep
      split at hstep
      · contradiction
      · rename_i call hcall
        cases hstep
        exact .accept hcall uuid
  | add object index =>
      rw [step] at hstep
      split at hstep
      · contradiction
      · rename_i q hq
        split at hstep
        · contradiction
        · rename_i msg hmsg
          cases hstep
          exact .add hq hmsg
  | work object move => exact .work hstep

theorem calls_request (b : Broker) (request : Request) :
    (b.request request).calls = b.calls := by
  unfold Broker.request
  split <;> rfl

theorem calls_accept (b : Broker) (call : EnqueueCall) (uuid : GoString) :
    (b.accept call uuid).calls = b.calls := by
  unfold Broker.accept
  split
  · rfl
  · dsimp only
    unfold updateObject
    split <;> exact calls_request b _

theorem unregister_eq {name : GoString} {object : Nat} {q : Queue}
    (hq : b.objects[object]? = some q) :
    b.unregister name object =
      { b.setObject object q.close with
        queues := b.queues.erase name
        numQueues := b.numQueues - 1
        mu := none } := by
  simp only [Broker.unregister, Broker.updateObject, hq]

namespace Sane

theorem append (hsane : b.Sane) {request : Request} {rec : Record} {effect : Effect}
    (hrecord : b.cat.record request = .ok rec) (heffect : rec.effect = some effect)
    (hnone : effect.message = none) (hcreate : ∀ name, effect = .create name → b.mu = none) :
    (b.append rec).Sane where
  book := by
    refine hsane.book.append hrecord heffect fun msgId hnew => ?_
    cases effect <;> simp_all [Effect.newIds, Effect.message]
  holdings := hsane.holdings.append heffect hnone
  wired := { hsane.wired with }
  closing := by
    intro name object hmu hmem
    have hheld : b.mu = some (.deleting name object) := hmu
    rcases hsane.book.mem_after hrecord heffect hmem with hold | hcreates
    · exact hsane.closing name object hheld hold
    · rw [hcreate name hcreates] at hheld
      contradiction

theorem setObject (hsane : b.Sane) {object : Nat} {q moved : Queue}
    (hq : b.objects[object]? = some q) (hkept : moved.Kept b.log) (hids : moved.ids ⊆ q.ids)
    (hname : moved.name = q.name) (hclosed : moved.isClosed = q.isClosed)
    (hreturned : moved.worker = .returned → moved.isClosed = true) :
    (b.setObject object moved).Sane where
  book := hsane.book
  holdings := hsane.holdings.set hq hkept hids
  wired := hsane.wired.setObject hq hname hclosed hreturned
  closing := hsane.closing

theorem replace (hsane : b.Sane) {request : Request} {rec : Record} {effect : Effect}
    {msgId : GoString} {object : Nat} {q moved : Queue}
    (hrecord : b.cat.record request = .ok rec) (heffect : rec.effect = some effect)
    (hq : b.objects[object]? = some q) (hkept : moved.Kept (b.log ++ [rec]))
    (hmessage : effect.message = some msgId)
    (hnew : ∀ msgId ∈ effect.newIds, msgId ∉ enqueuedIds b.log)
    (hown : msgId ∈ q.ids ∨ msgId ∈ effect.newIds)
    (hids : ∀ msgId ∈ moved.ids, msgId ∈ q.ids ∨ msgId ∈ effect.newIds)
    (hname : moved.name = q.name) (hclosed : moved.isClosed = q.isClosed)
    (hreturned : moved.worker = .returned → moved.isClosed = true) :
    ((b.append rec).setObject object moved).Sane where
  book := hsane.book.append hrecord heffect hnew
  holdings := by
    refine hsane.holdings.replace hq heffect hkept hnew hids fun other hother => ?_
    rw [hmessage] at hother
    cases hother
    exact hown
  wired := by
    have hwired : (b.append rec).Wired := { hsane.wired with }
    exact hwired.setObject hq hname hclosed hreturned
  closing := by
    intro name found hmu hmem
    rcases hsane.book.mem_after hrecord heffect hmem with hold | hcreates
    · exact hsane.closing name found hmu hold
    · subst hcreates
      contradiction

theorem editPolicies (hsane : b.Sane) {event : BrokerEvent} {request : Request}
    (hrequest : policyRequest event = some request) : (b.request request).Sane := by
  rcases b.request_cases request with hsame | ⟨rec, effect, hrecord, heffect, hwrites, hnext⟩
  · rw [hsame]
    exact hsane
  · obtain ⟨hnone, hedits⟩ := edits_of_policyRequest hrequest hwrites
    rw [hnext]
    exact hsane.append hrecord heffect hnone fun name heq => absurd heq (hedits name).1

theorem createQueue (hsane : b.Sane) (hmu : b.mu = none) (name : GoString) :
    (b.createQueue name).Sane := by
  unfold Broker.createQueue
  split_ifs with hregistered hfull
  · exact hsane
  · exact hsane
  · cases hrecord : b.cat.record (.createQueue name) with
    | error err => exact hsane
    | ok rec =>
        obtain ⟨effect, heffect, hwrites⟩ := Catalog.writes_of_record hrecord
        have hnone : effect.message = none := by cases hwrites; rfl
        have hnext := hsane.append hrecord heffect hnone fun _ _ => hmu
        have hfree : b.queues.lookup name = none := by
          rwa [← Finmap.lookup_eq_none] at hregistered
        refine ⟨hnext.book, hnext.holdings,
          { hnext.wired with creating := ?_, deleting := ?_ }, ?_⟩
        · rintro other heq
          cases heq
          exact hfree
        · rintro other object heq
          cases heq
        · rintro other object heq
          cases heq

theorem register (hsane : b.Sane) (name : GoString) : (b.register name).Sane := by
  have hwired := hsane.wired
  have hold : ∀ (i : Nat) (q : Queue), b.objects[i]? = some q →
      (b.register name).objects[i]? = some q := by
    intro i q hq
    have hlt := (List.getElem?_eq_some_iff.mp hq).1
    simp [Broker.register, List.getElem?_append_left hlt, hq]
  refine ⟨hsane.book, hsane.holdings.concat name, ⟨?_, ?_, ?_, ?_, ?_⟩, ?_⟩
  · intro other object hlookup
    simp only [Broker.register, GoMap.lookup_insert_eq] at hlookup
    split_ifs at hlookup with hsame
    · cases hlookup
      exact ⟨newQueue name, by simp [Broker.register], hsame.symm, rfl⟩
    · obtain ⟨q, hq, hfacts⟩ := hwired.registered other object hlookup
      exact ⟨q, hold object q hq, hfacts⟩
  · intro call hcall
    obtain ⟨q, hq, hname⟩ := hwired.calls call hcall
    exact ⟨q, hold call.object q hq, hname⟩
  · rintro other heq
    cases heq
  · rintro other object heq
    cases heq
  · intro i q hq hreturned
    simp only [Broker.register, List.getElem?_append] at hq
    split_ifs at hq
    · exact hwired.returned i q hq hreturned
    · rw [List.getElem?_singleton] at hq
      split_ifs at hq
      cases hq
      contradiction
  · rintro other object heq
    cases heq

theorem deleteQueue (hsane : b.Sane) (hmu : b.mu = none) (name : GoString) :
    (b.deleteQueue name).Sane := by
  unfold Broker.deleteQueue
  cases hlookup : b.queues.lookup name with
  | none => exact hsane
  | some object =>
      cases hrecord : b.cat.record (.deleteQueue name) with
      | error err => exact hsane
      | ok rec =>
          obtain ⟨effect, heffect, hwrites⟩ := Catalog.writes_of_record hrecord
          have hnone : effect.message = none := by cases hwrites; rfl
          have hnext := hsane.append hrecord heffect hnone fun _ _ => hmu
          obtain ⟨-, rfl⟩ := Catalog.require_eq_ok hrecord
          refine ⟨hnext.book, hnext.holdings,
            { hnext.wired with creating := ?_, deleting := ?_ }, ?_⟩
          · rintro other heq
            cases heq
          · rintro other found heq
            cases heq
            exact hlookup
          · rintro other found heq hmem
            cases heq
            exact (Finmap.mem_erase.mp hmem).1 rfl

theorem unregister (hsane : b.Sane) {name : GoString} {object : Nat}
    (hmu : b.mu = some (.deleting name object)) : (b.unregister name object).Sane := by
  have hwired := hsane.wired
  obtain ⟨q, hq, hname, -⟩ :=
    hwired.registered name object (hwired.deleting name object hmu)
  rw [unregister_eq hq]
  have hkept := hsane.holdings.kept object q hq
  have hfind := getElem?_setObject hq q.close
  refine ⟨hsane.book, ?_, ⟨?_, ?_, ?_, ?_, ?_⟩, ?_⟩
  · exact hsane.holdings.set hq ⟨hkept.items, hkept.ids, hkept.worker⟩ (List.Subset.refl _)
  · intro other i hlookup
    rw [GoMap.lookup_erase_eq] at hlookup
    split_ifs at hlookup with hother
    obtain ⟨found, hfound, hfoundName, hopen⟩ := hwired.registered other i hlookup
    refine ⟨found, ?_, hfoundName, hopen⟩
    have hi : i ≠ object := by
      rintro rfl
      rw [hq] at hfound
      cases hfound
      exact hother (hfoundName.symm.trans hname)
    exact (hfind i).trans ((if_neg hi).trans hfound)
  · intro call hcall
    obtain ⟨found, hfound, hfoundName⟩ := hwired.calls call hcall
    by_cases hsame : call.object = object
    · rw [hsame, hq] at hfound
      cases hfound
      exact ⟨q.close, (hfind _).trans (if_pos hsame), hfoundName⟩
    · exact ⟨found, (hfind _).trans ((if_neg hsame).trans hfound), hfoundName⟩
  · rintro other heq
    cases heq
  · rintro other i heq
    cases heq
  · intro i found hfound
    replace hfound := (hfind i).symm.trans hfound
    split_ifs at hfound
    · cases hfound
      exact fun _ => rfl
    · exact hwired.returned i found hfound
  · rintro other i heq
    cases heq

theorem find (hsane : b.Sane) (queueName payload : GoString) :
    (b.find queueName payload).Sane := by
  unfold Broker.find
  cases hlookup : b.queues.lookup queueName with
  | none => exact hsane
  | some object =>
      refine ⟨hsane.book, hsane.holdings, { hsane.wired with calls := ?_ }, hsane.closing⟩
      intro call hcall
      rcases List.mem_append.mp hcall with hold | hnew
      · exact hsane.wired.calls call hold
      · rw [List.mem_singleton] at hnew
        subst hnew
        obtain ⟨q, hq, hname, -⟩ := hsane.wired.registered queueName object hlookup
        exact ⟨q, hq, hname⟩

theorem accept_cases (hsane : b.Sane) {call : EnqueueCall} (hcall : call ∈ b.calls)
    (uuid : GoString) :
    (call.queueName ∉ b.cat ∧ b.accept call uuid = b) ∨
      ∃ subList rec q, call.queueName ∈ b.cat ∧ FromLog subList ∧
        b.cat.record (.enqueue call.queueName (call.msgId uuid) call.payload) = .ok rec ∧
        rec.effect = some (.accept call.queueName (toValid (call.msgId uuid))
          (toValid call.payload) subList) ∧
        b.objects[call.object]? = some q ∧ q.name = call.queueName ∧
        b.accept call uuid = (b.append rec).setObject call.object
          (q.expect (newQueueMsg (call.msgId uuid) call.payload subList ∅)) := by
  obtain ⟨q, hq, hname⟩ := hsane.wired.calls call hcall
  unfold Broker.accept
  cases hlookup : b.cat.lookup call.queueName with
  | none => exact .inl ⟨Finmap.lookup_eq_none.mp hlookup, rfl⟩
  | some subList =>
      have hsubs := hsane.book.policies call.queueName subList hlookup
      have hmem : call.queueName ∈ b.cat := Finmap.mem_iff.mpr ⟨subList, hlookup⟩
      obtain ⟨rec, hrecord⟩ : ∃ rec, b.cat.record
          (.enqueue call.queueName (call.msgId uuid) call.payload) = .ok rec := by
        simp [Catalog.record, hlookup]
      obtain ⟨effect, heffect, hwrites⟩ := Catalog.writes_of_record hrecord
      cases hwrites with
      | enqueue hfound _ _ =>
          rw [hlookup] at hfound
          cases hfound
          rw [hsubs.coerceMap_eq] at heffect
          refine .inr ⟨subList, rec, q, hmem, hsubs, hrecord, heffect, hq, hname, ?_⟩
          have hobjects : (b.append rec).objects[call.object]? = some q := hq
          simp only [Broker.request, newQueueMsg, hrecord, updateObject, hobjects]

theorem accept (hsane : b.Sane) {call : EnqueueCall} (hcall : call ∈ b.calls)
    (uuid : GoString) (hfresh : toValid (call.msgId uuid) ∉ enqueuedIds b.log) :
    (b.accept call uuid).Sane := by
  rcases hsane.accept_cases hcall uuid with
    ⟨-, hsame⟩ | ⟨subList, rec, q, hmem, hsubs, hrecord, heffect, hq, hname, hnext⟩
  · rw [hsame]
    exact hsane
  · have hunused := hsane.book.lookup_of_fresh hfresh
    have hkept := hsane.holdings.kept call.object q hq
    have hother : toValid (call.msgId uuid) ∉ q.ids := fun hmem =>
      hfresh (hsane.holdings.used call.object q hq _ hmem)
    rw [hnext]
    refine hsane.replace hrecord heffect hq ⟨?_, ?_, hkept.worker⟩ rfl ?_ ?_ ?_ rfl rfl
      (hsane.wired.returned call.object q hq)
    · intro msg hmsg
      rcases List.mem_cons.mp hmsg with rfl | hold
      · exact .accepted hsubs hunused (by rw [heffect, Queue.expect, hname])
      · refine (hkept.items msg hold).append heffect fun hsame => hother ?_
        rw [Option.some.inj hsame]
        exact List.mem_map_of_mem hold
    · exact List.nodup_cons.mpr ⟨hother, hkept.ids⟩
    · simpa [Effect.newIds] using hfresh
    · exact .inr List.mem_cons_self
    · intro msgId hmem
      rcases List.mem_cons.mp hmem with rfl | hold
      · exact .inr List.mem_cons_self
      · exact .inl hold

theorem add (hsane : b.Sane) {object index : Nat} {q : Queue} {msg : QueueMsg}
    (hq : b.objects[object]? = some q) (hmsg : q.adding[index]? = some msg) :
    (b.setObject object ({ q with adding := q.adding.eraseIdx index }.add msg)).Sane := by
  have hitems := Queue.items_add_perm hmsg
  have hids := hitems.map QueueMsg.logId
  have hkept := hsane.holdings.kept object q hq
  refine hsane.setObject hq ⟨?_, hids.nodup_iff.mpr hkept.ids, hkept.worker⟩ hids.subset
    rfl rfl (hsane.wired.returned object q hq)
  exact fun other hother => hkept.items other (hitems.mem_iff.mp hother)

theorem work_cases (hsane : b.Sane) {object : Nat} {move : Move}
    (hstep : b.step (.work object move) = some next) :
    ∃ q moved, b.objects[object]? = some q ∧
      ((q.Moved moved none ∧ next = b.setObject object moved) ∨
        ∃ hand subName rec, hand ∈ q.items ∧ subName ∈ hand.subPolicySnapshot.keys ∧
          subName ∉ hand.ackedSubs ∧
          q.move move = some (moved, some (.ack q.name hand.msgId subName)) ∧
          q.Moved moved (some (.ack q.name hand.msgId subName)) ∧
          b.cat.record (.ack q.name hand.msgId subName) = .ok rec ∧
          rec.effect = some (.settle q.name hand.logId subName) ∧
          next = (b.append rec).setObject object moved) := by
  rw [step] at hstep
  split at hstep
  · contradiction
  · rename_i q hq
    have hkept := hsane.holdings.kept object q hq
    split at hstep
    · contradiction
    · rename_i moved hmove
      cases hstep
      exact ⟨q, moved, hq, .inl ⟨Queue.moved hkept hmove, rfl⟩⟩
    · rename_i moved request hmove
      have hmoved := Queue.moved hkept hmove
      cases hstep
      cases hmoved.outcome with
      | @acked hand subName hhand hsub hwaits _ =>
          have hvalid := (hkept.items hand hhand).snapshot.valid_name hsub
          refine ⟨q, moved, hq, .inr ⟨hand, subName, _, hhand, hsub, hwaits, hmove, hmoved,
            rfl, ?_, rfl⟩⟩
          simp [Record.effect, decodeAck_encodeAck, Ack.coerce, QueueMsg.logId,
            flatten_runes_of_valid hvalid]

theorem work (hsane : b.Sane) {object : Nat} {move : Move}
    (hstep : b.step (.work object move) = some next) : next.Sane := by
  obtain ⟨q, moved, hq, ⟨hmoved, rfl⟩ | ⟨hand, subName, rec, hhand, -, -, -, hmoved,
    hrecord, heffect, rfl⟩⟩ := hsane.work_cases hstep
  · exact hsane.setObject hq (hmoved.kept_quiet (hsane.holdings.kept object q hq))
      hmoved.ids.subset hmoved.name hmoved.isClosed fun hreturned =>
        hmoved.isClosed.trans (hmoved.returned hreturned)
  · refine hsane.replace hrecord heffect hq
      (hmoved.kept_acked (hsane.holdings.kept object q hq) heffect) rfl (by simp [Effect.newIds])
      (.inl (List.mem_map_of_mem hhand)) (fun msgId hmem => .inl (hmoved.ids.subset hmem))
      hmoved.name hmoved.isClosed fun hreturned =>
        hmoved.isClosed.trans (hmoved.returned hreturned)

theorem step {event : BrokerEvent} (hsane : b.Sane) (hfresh : b.Fresh event)
    (hstep : b.step event = some next) : next.Sane := by
  cases steps_of_step hstep with
  | createQueue hmu name => exact hsane.createQueue hmu name
  | register hmu => exact hsane.register _
  | deleteQueue hmu name => exact hsane.deleteQueue hmu name
  | unregister hmu => exact hsane.unregister hmu
  | editPolicies hrequest => exact hsane.editPolicies hrequest
  | find queueName payload => exact hsane.find queueName payload
  | @accept index call hcall uuid =>
      have hunused : toValid (call.msgId uuid) ∉ enqueuedIds b.log :=
        hfresh _ (by simp [newId, hcall])
      have hnext := hsane.accept (List.mem_of_getElem? hcall) uuid hunused
      refine ⟨hnext.book, hnext.holdings, { hnext.wired with calls := ?_ }, hnext.closing⟩
      intro other hother
      refine hnext.wired.calls other ?_
      rw [calls_accept]
      exact List.mem_of_mem_eraseIdx hother
  | add hq hmsg => exact hsane.add hq hmsg
  | work hstep => exact hsane.work hstep

end Sane

end Broker

end SimonMQ.Durable
