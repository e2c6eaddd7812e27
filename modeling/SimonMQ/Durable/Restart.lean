import SimonMQ.Durable.Recovery
import SimonMQ.Durable.Registry

namespace SimonMQ.Durable

open SimonMQ.Go
open SimonMQ.Go.Utf8
open SimonMQ.Transition

/-! Whether a broker can always be started again on the log it has written. -/

namespace Broker

/-- `CreateQueue` with `fromWAL`. -/
def createFromWAL (b : Broker) (name : GoString) : Broker :=
  if name ∈ b.queues then b
  else if 128 ≤ b.numQueues then b
  else b.register name

def enqueueFromWAL (b : Broker) (queueName msgId : GoString) (msg : Message) : Broker :=
  match b.queues.lookup queueName with
  | none => b
  | some object =>
      b.updateObject object fun q =>
        q.add (newQueueMsg msgId msg.content msg.subList msg.ackedSubs)

/-- How `RestoreWAL` walks its maps. -/
structure RestoreOrder where
  queues : GoMap.Order (GoMap SubPolicy)
  deliveries : GoMap.Order (GoMap Message)
  messages : GoMap.Order Message

/-- The loop of `RestoreWAL` over the messages of a queue. -/
def restoreMessages (order : GoMap.Order Message) (b : Broker)
    (entry : GoString × GoMap Message) : Broker :=
  if entry.1 ∈ b.queues then
    (order.walk entry.2).foldl
      (fun b msg => if msg.2.hasUnackedSubs then b.enqueueFromWAL entry.1 msg.1 msg.2 else b) b
  else b

/-- `RestoreWAL` after the replay, on a new broker. -/
def restoreWAL (log : List Record) (replayed : Replayed) (order : RestoreOrder) : Broker :=
  let b : Broker := { cat := replayed.cat, log }
  let b := ((order.queues.walk replayed.cat).map Prod.fst).foldl createFromWAL b
  (order.deliveries.walk replayed.deli).foldl (restoreMessages order.messages) b

end Broker

/-! The files. -/

/-- The callers' records in a log, as they were handed to `append`. -/
def requested (log : List Record) : List Record :=
  (log.filter fun rec => rec.opType ≠ .beginCheckpoint ∧ rec.opType ≠ .endCheckpoint).map
    fun rec => { rec with lsn := 0 }

theorem admitsAll_of_requested {log : List Record} {ledger : Ledger}
    (hadmits : ledger.AdmitsAll (requested log)) : ledger.AdmitsAll log := by
  induction log generalizing ledger with
  | nil => trivial
  | cons rec log ih =>
      by_cases hcaller : rec.opType ≠ .beginCheckpoint ∧ rec.opType ≠ .endCheckpoint
      · rw [requested, List.filter_cons_of_pos (by simpa using hcaller)] at hadmits
        exact ⟨hadmits.1, ih hadmits.2⟩
      · rw [requested, List.filter_cons_of_neg (by simpa using hcaller)] at hadmits
        have heffect : rec.effect = some .nothing := by
          rw [not_and_or, not_not, not_not] at hcaller
          rcases hcaller with hop | hop <;> simp [Record.effect, hop]
        refine ⟨⟨.nothing, heffect, trivial⟩, ih ?_⟩
        rw [Ledger.follow_of_effect heffect]
        exact hadmits

theorem Ledger.followAll_requested (ledger : Ledger) (log : List Record) :
    ledger.followAll (requested log) = ledger.followAll log := by
  induction log generalizing ledger with
  | nil => rfl
  | cons rec log ih =>
      by_cases hcaller : rec.opType ≠ .beginCheckpoint ∧ rec.opType ≠ .endCheckpoint
      · rw [requested, List.filter_cons_of_pos (by simpa using hcaller)]
        exact ih (ledger.follow rec)
      · have heffect : rec.effect = some .nothing := by
          rw [not_and_or, not_not, not_not] at hcaller
          rcases hcaller with hop | hop <;> simp [Record.effect, hop]
        rw [requested, List.filter_cons_of_neg (by simpa using hcaller), Ledger.followAll_cons,
          Ledger.follow_of_effect heffect]
        exact ih ledger

/-- A start: on the files of coordinators that have run as `history` says, with the
configuration it reads them under, and the orders in which `RestoreWAL` walks its maps. -/
structure Startup where
  history : List NodeEvent
  maxSegSize : Int
  mode : Mode
  fuel : Nat
  order : Broker.RestoreOrder

/-- What `Open` and `ReadAll` bring up; no value when they fail, or when reading takes more
than `fuel` turns. -/
def Startup.records (startup : Startup) : Option (List Record) :=
  (exec Node.step Node.initial startup.history).bind fun s =>
    Sessions.reread s.status.dir startup.maxSegSize startup.mode startup.fuel

/-- The files are those of coordinators whose callers have appended this log, by any run
with checkpoints and crashes, within the limits. -/
structure Startup.Finds (startup : Startup) (log : List Record) : Prop where
  within : Meets Node.step Node.Allows Node.initial startup.history
  written : ∃ s ∈ exec Node.step Node.initial startup.history,
    requested s.log = log ∧ s.log.length + 2 < 2 ^ 64

instance (startup : Startup) (log : List Record) : Decidable (startup.Finds log) :=
  decidable_of_iff (Meets Node.step Node.Allows Node.initial startup.history ∧
      ∃ s ∈ exec Node.step Node.initial startup.history,
        requested s.log = log ∧ s.log.length + 2 < 2 ^ 64)
    ⟨fun hfinds => ⟨hfinds.1, hfinds.2⟩, fun hfinds => ⟨hfinds.1, hfinds.2⟩⟩

theorem Startup.Finds.recovers {startup : Startup} {log : List Record}
    (hfinds : startup.Finds log) (hadmits : ({} : Ledger).AdmitsAll log) :
    ∃ records replayed enough,
      (∀ fuel, enough ≤ fuel → { startup with fuel }.records = some records) ∧
      Replayed.replay {} records = .ok replayed ∧
      replayed.Reflects (({} : Ledger).followAll log) := by
  obtain ⟨s, hrun, rfl, hcount⟩ := hfinds.written
  obtain ⟨records, hrecovers, enough, hreread⟩ :=
    (Node.sane_run hfinds.within hrun hcount).reread startup.maxSegSize startup.mode
  obtain ⟨hrecords, hsame⟩ := hrecovers (admitsAll_of_requested hadmits)
  obtain ⟨replayed, hreplay, hreflects⟩ := Replayed.reflects_empty.replay hrecords
  rw [hsame, ← Ledger.followAll_requested] at hreflects
  refine ⟨records, replayed, enough, fun fuel hfuel => ?_, hreplay, hreflects⟩
  rw [Startup.records, Option.mem_def.mp hrun]
  exact hreread fuel hfuel

theorem Startup.records_mono {startup : Startup} {records : List Record}
    (hrecords : startup.records = some records) {fuel : Nat} (hfuel : startup.fuel ≤ fuel) :
    { startup with fuel }.records = some records := by
  obtain ⟨s, hrun, hreread⟩ := Option.bind_eq_some_iff.mp hrecords
  rw [Startup.records, hrun]
  exact Sessions.reread_mono hreread hfuel

/-- A broker that serves, or one that is stopped at any point and started again. -/
inductive ServiceEvent
  | live (event : BrokerEvent)
  | restart (startup : Startup)

namespace Broker

/-- A start fails if the files cannot be read or what they hold does not replay. -/
def serve (b : Broker) : ServiceEvent → Option Broker
  | .live event => b.step event
  | .restart startup =>
      match startup.records with
      | none => none
      | some records =>
          match Replayed.replay {} records with
          | .error _ => none
          | .ok replayed => some (restoreWAL b.log replayed startup.order)

def acking (b : Broker) : BrokerEvent → Option (GoString × GoString)
  | .work object move =>
      b.objects[object]?.bind fun q =>
        (q.move move).bind fun result =>
          match result.2 with
          | some (.ack queueName msgId _) => some (queueName, msgId)
          | _ => none
  | _ => none

/-- No ack is logged for a message whose queue has been deleted since the message was
accepted. -/
def AcksSurvivor (b : Broker) (event : BrokerEvent) : Prop :=
  ∀ ack ∈ b.acking event, survives ack.1 (toValid ack.2) b.log = true

instance (b : Broker) (event : BrokerEvent) : Decidable (b.AcksSurvivor event) :=
  inferInstanceAs (Decidable (∀ ack ∈ b.acking event, survives ack.1 (toValid ack.2) b.log))

/-- What the step logs is within the limit of the readers. -/
def WithinLimit (b : Broker) (event : BrokerEvent) : Prop :=
  ∀ next ∈ b.step event, ∀ rec ∈ next.log.drop b.log.length, rec.Fits

instance (b : Broker) (event : BrokerEvent) : Decidable (b.WithinLimit event) :=
  inferInstanceAs (Decidable
    (∀ next ∈ b.step event, ∀ rec ∈ next.log.drop b.log.length, rec.Fits))

/-- What is asked of the events of a service. -/
def Orderly (b : Broker) : ServiceEvent → Prop
  | .live event => b.Fresh event ∧ b.AcksSurvivor event ∧ b.WithinLimit event
  | .restart startup => startup.Finds b.log

instance (b : Broker) (event : ServiceEvent) : Decidable (b.Orderly event) :=
  match event with
  | .live event =>
      inferInstanceAs (Decidable (b.Fresh event ∧ b.AcksSurvivor event ∧ b.WithinLimit event))
  | .restart startup => inferInstanceAs (Decidable (startup.Finds b.log))

variable {b next : Broker}

/-! What is logged is admissible. -/

section Admissible

variable {request : Request} {rec : Record} {effect : Effect}

theorem admitsAll_append (hadmits : ({} : Ledger).AdmitsAll b.log)
    (heffect : rec.effect = some effect) (hrec : b.ledger.Admits effect) :
    ({} : Ledger).AdmitsAll (b.append rec).log :=
  Ledger.admitsAll_append.mpr ⟨hadmits, ⟨effect, heffect, hrec⟩, trivial⟩

theorem Sane.admits (hsane : b.Sane) (hwrites : b.cat.Writes request effect)
    (hnone : effect.message = none) : b.ledger.Admits effect := by
  have hcatalog : b.cat = b.ledger.catalog := hsane.book.catalog
  cases hwrites with
  | createQueue queue => trivial
  | deleteQueue hqueue => trivial
  | updateSubPolicy hqueue policy =>
      rw [hcatalog] at hqueue
      exact hqueue
  | deleteSubPolicy hqueue subName =>
      rw [hcatalog] at hqueue
      exact hqueue
  | enqueue hlookup msgId content => contradiction
  | ack queue msgId subName => contradiction

theorem Sane.admits_request (hsane : b.Sane) (hadmits : ({} : Ledger).AdmitsAll b.log)
    (hedits : ∀ effect, b.cat.Writes request effect → effect.message = none) :
    ({} : Ledger).AdmitsAll (b.request request).log := by
  rcases b.request_cases request with hsame | ⟨rec, effect, hrecord, heffect, hwrites, hnext⟩
  · rw [hsame]
    exact hadmits
  · rw [hnext]
    exact admitsAll_append hadmits heffect (hsane.admits hwrites (hedits effect hwrites))

theorem Sane.admits_createQueue (hsane : b.Sane) (hadmits : ({} : Ledger).AdmitsAll b.log)
    (name : GoString) : ({} : Ledger).AdmitsAll (b.createQueue name).log := by
  unfold Broker.createQueue
  split_ifs
  · exact hadmits
  · exact hadmits
  · cases hrecord : b.cat.record (.createQueue name) with
    | error err => exact hadmits
    | ok rec =>
        obtain ⟨effect, heffect, hwrites⟩ := Catalog.writes_of_record hrecord
        exact admitsAll_append hadmits heffect (hsane.admits hwrites (by cases hwrites; rfl))

theorem Sane.admits_deleteQueue (hsane : b.Sane) (hadmits : ({} : Ledger).AdmitsAll b.log)
    (name : GoString) : ({} : Ledger).AdmitsAll (b.deleteQueue name).log := by
  unfold Broker.deleteQueue
  cases b.queues.lookup name with
  | none => exact hadmits
  | some object =>
      cases hrecord : b.cat.record (.deleteQueue name) with
      | error err => exact hadmits
      | ok rec =>
          obtain ⟨effect, heffect, hwrites⟩ := Catalog.writes_of_record hrecord
          exact admitsAll_append hadmits heffect (hsane.admits hwrites (by cases hwrites; rfl))

theorem Sane.admits_accept (hsane : b.Sane) (hadmits : ({} : Ledger).AdmitsAll b.log)
    {call : EnqueueCall} (hcall : call ∈ b.calls) {uuid : GoString}
    (hfresh : toValid (call.msgId uuid) ∉ enqueuedIds b.log) :
    ({} : Ledger).AdmitsAll (b.accept call uuid).log := by
  rcases hsane.accept_cases hcall uuid with
    ⟨-, hsame⟩ | ⟨subList, rec, q, hmem, hsubs, hrecord, heffect, hq, hname, hnext⟩
  · rw [hsame]
    exact hadmits
  · rw [hnext]
    rw [hsane.book.catalog] at hmem
    exact admitsAll_append hadmits heffect
      ⟨hmem, hsane.book.lookup_of_fresh hfresh, hsubs.keyed⟩

theorem Sane.admits_work (hsane : b.Sane) (hadmits : ({} : Ledger).AdmitsAll b.log)
    {object : Nat} {move : Move} (hsurvivor : b.AcksSurvivor (.work object move))
    (hstep : b.step (.work object move) = some next) : ({} : Ledger).AdmitsAll next.log := by
  obtain ⟨q, moved, hq, ⟨hmoved, rfl⟩ |
    ⟨hand, subName, rec, hhand, hsub, hwaits, hmove, -, -, heffect, rfl⟩⟩ :=
      hsane.work_cases hstep
  · exact hadmits
  · have halive := hsurvivor (q.name, hand.msgId) (by simp [acking, hq, hmove])
    have hkept := (hsane.holdings.kept object q hq).items hand hhand
    obtain ⟨pending, hpending⟩ := hkept.owed halive fun hdone => hwaits (hdone hsub)
    obtain ⟨hqueue, hsubs, hacked⟩ := hkept.agrees pending hpending
    refine admitsAll_append hadmits heffect ⟨pending, hpending, hqueue, ?_, ?_⟩
    · rw [hsubs]
      exact hsub
    · rw [hacked]
      exact hwaits

theorem Sane.admits_step {event : BrokerEvent} (hsane : b.Sane)
    (hadmits : ({} : Ledger).AdmitsAll b.log) (hfresh : b.Fresh event)
    (hsurvivor : b.AcksSurvivor event) (hstep : b.step event = some next) :
    ({} : Ledger).AdmitsAll next.log := by
  cases steps_of_step hstep with
  | createQueue hmu name => exact hsane.admits_createQueue hadmits name
  | register hmu => exact hadmits
  | deleteQueue hmu name => exact hsane.admits_deleteQueue hadmits name
  | unregister hmu =>
      unfold Broker.unregister updateObject
      split <;> exact hadmits
  | editPolicies hrequest =>
      exact hsane.admits_request hadmits fun effect hwrites =>
        (edits_of_policyRequest hrequest hwrites).1
  | find queueName payload =>
      unfold Broker.find
      split <;> exact hadmits
  | @accept index call hcall uuid =>
      exact hsane.admits_accept hadmits (List.mem_of_getElem? hcall)
        (hfresh _ (by simp [newId, hcall]))
  | add hq hmsg => exact hadmits
  | work hstep => exact hsane.admits_work hadmits hsurvivor hstep

end Admissible

/-! `RestoreWAL`. -/

/-- In the middle of `RestoreWAL`, with the ids of the messages added so far. -/
structure Restoring (b : Broker) (log : List Record) (seen : GoString → Prop) : Prop where
  sane : b.Sane
  log_eq : b.log = log
  seen : ∀ (i : Nat) (q : Queue), b.objects[i]? = some q → ∀ msgId ∈ q.ids, seen msgId

namespace Restoring

variable {log : List Record} {replayed : Replayed} {seen : GoString → Prop}

theorem mono {later : GoString → Prop} (hrestoring : b.Restoring log seen)
    (hlater : ∀ msgId, seen msgId → later msgId) : b.Restoring log later where
  sane := hrestoring.sane
  log_eq := hrestoring.log_eq
  seen := fun i q hq msgId hmem => hlater msgId (hrestoring.seen i q hq msgId hmem)

theorem createFromWAL (hrestoring : b.Restoring log seen) (name : GoString) :
    (b.createFromWAL name).Restoring log seen := by
  unfold Broker.createFromWAL
  split_ifs
  · exact hrestoring
  · exact hrestoring
  · refine ⟨hrestoring.sane.register name, hrestoring.log_eq, fun i q hq => ?_⟩
    simp only [Broker.register, List.getElem?_append] at hq
    split_ifs at hq
    · exact hrestoring.seen i q hq
    · rw [List.getElem?_singleton] at hq
      split_ifs at hq
      cases hq
      exact fun msgId hmem => absurd hmem List.not_mem_nil

theorem foldl_createFromWAL (hrestoring : b.Restoring log seen) (names : List GoString) :
    (names.foldl Broker.createFromWAL b).Restoring log seen := by
  induction names generalizing b with
  | nil => exact hrestoring
  | cons name names ih => exact ih (hrestoring.createFromWAL name)

theorem mem_ids_add (q : Queue) {msg : QueueMsg} {msgId : GoString}
    (hmem : msgId ∈ (q.add msg).ids) : msgId = msg.logId ∨ msgId ∈ q.ids :=
  List.mem_cons.mp (((q.items_add msg).map QueueMsg.logId).mem_iff.mp hmem)

/-- A message that comes out of the ledger is kept beside those that came before it. -/
theorem kept_add {q : Queue} {msg : QueueMsg} {pending : Pending} (hkept : q.Kept log)
    (hsubs : FromLog msg.subPolicySnapshot)
    (hpending : (({} : Ledger).followAll log).pending.lookup msg.logId = some pending)
    (hagrees : pending.queue = q.name ∧ pending.subList = msg.subPolicySnapshot ∧
      pending.acked = msg.ackedSubs)
    (hnew : msg.logId ∉ q.ids) : (q.add msg).Kept log where
  items := by
    intro other hother
    rcases List.mem_cons.mp ((q.items_add msg).mem_iff.mp hother) with rfl | hold
    · refine ⟨hsubs, fun found hfound => ?_, fun _ _ => ⟨pending, hpending⟩⟩
      rw [hpending] at hfound
      cases hfound
      exact hagrees
    · exact hkept.items other hold
  ids := ((q.items_add msg).map QueueMsg.logId).nodup_iff.mpr
    (List.nodup_cons.mpr ⟨hnew, hkept.ids⟩)
  worker := hkept.worker

theorem enqueueFromWAL (hrestoring : b.Restoring log seen)
    (hreflects : replayed.Reflects (({} : Ledger).followAll log))
    {queueName msgId : GoString} {msg : Message}
    (hmsg : replayed.message queueName msgId = some msg)
    (hunacked : msg.hasUnackedSubs = true) (hnew : ¬ seen msgId) :
    (b.enqueueFromWAL queueName msgId msg).Restoring log
      (fun other => seen other ∨ other = msgId) := by
  have hpending := (hreflects.pending queueName msgId msg).mp ⟨hmsg, hunacked⟩
  obtain ⟨hsane, rfl, hseen⟩ := hrestoring
  obtain ⟨hvalid, hsubs⟩ := hsane.book.snapshots msgId _ hpending
  unfold Broker.enqueueFromWAL
  cases hlookup : b.queues.lookup queueName with
  | none => exact ⟨hsane, rfl, fun i q hq other hmem => .inl (hseen i q hq other hmem)⟩
  | some object =>
      obtain ⟨q, hq, hname, -⟩ := hsane.wired.registered queueName object hlookup
      have hid : (newQueueMsg msgId msg.content msg.subList msg.ackedSubs).logId = msgId :=
        flatten_runes_of_valid hvalid
      have hnext : (q.add (newQueueMsg msgId msg.content msg.subList
          msg.ackedSubs)).Kept b.log := by
        refine kept_add (hsane.holdings.kept object q hq) hsubs (hid.symm ▸ hpending)
          ⟨hname.symm, rfl, rfl⟩ ?_
        rw [hid]
        exact fun hmem => hnew (hseen object q hq msgId hmem)
      have hmem : ∀ other, other ∈ (q.add (newQueueMsg msgId msg.content msg.subList
          msg.ackedSubs)).ids → other = msgId ∨ other ∈ q.ids := by
        intro other hother
        rw [← hid]
        exact mem_ids_add q hother
      simp only [updateObject, hq]
      refine ⟨⟨hsane.book, ?_, ?_, hsane.closing⟩, rfl,
        fun i found hfound other hother => ?_⟩
      · refine hsane.holdings.of_set (List.Subset.refl _) hnext ?_ fun i other hne hother => ?_
        · intro other hother
          rcases hmem other hother with rfl | hold
          · exact hsane.book.used _ _ hpending
          · exact hsane.holdings.used object q hq other hold
        · refine ⟨hsane.holdings.kept i other hother, fun found hfound hclash => ?_⟩
          rcases hmem found hfound with rfl | hold
          · exact hnew (hseen i other hother found hclash)
          · exact hsane.holdings.apart object i q other hq hother hne.symm found hold hclash
      · exact hsane.wired.setObject hq rfl rfl (hsane.wired.returned object q hq)
      · rw [getElem?_setObject hq] at hfound
        split_ifs at hfound
        · cases hfound
          exact (hmem other hother).symm.imp (hseen object q hq other) id
        · exact .inl (hseen i found hfound other hother)

theorem foldl_messages (hreflects : replayed.Reflects (({} : Ledger).followAll log))
    {queueName : GoString} {entries : List (GoString × Message)}
    (hentries : ∀ entry ∈ entries, replayed.message queueName entry.1 = some entry.2)
    (hnodup : (entries.map Prod.fst).Nodup) (hrestoring : b.Restoring log seen)
    (hnew : ∀ entry ∈ entries, entry.2.hasUnackedSubs = true → ¬ seen entry.1) :
    (entries.foldl (fun b entry =>
        if entry.2.hasUnackedSubs then b.enqueueFromWAL queueName entry.1 entry.2 else b)
      b).Restoring log
      (fun msgId => seen msgId ∨
        ∃ entry ∈ entries, entry.1 = msgId ∧ entry.2.hasUnackedSubs = true) := by
  induction entries generalizing b seen with
  | nil => exact hrestoring.mono fun msgId hseen => .inl hseen
  | cons entry entries ih =>
      rw [List.map_cons, List.nodup_cons] at hnodup
      have hlater := fun other hmem => hentries other (List.mem_cons_of_mem entry hmem)
      rw [List.foldl_cons]
      by_cases hunacked : entry.2.hasUnackedSubs = true
      · rw [if_pos hunacked]
        have hnext := hrestoring.enqueueFromWAL hreflects (hentries entry List.mem_cons_self)
          hunacked (hnew entry List.mem_cons_self hunacked)
        refine (ih hlater hnodup.2 hnext fun other hmem hother => ?_).mono ?_
        · rintro (hseen | hsame)
          · exact hnew other (List.mem_cons_of_mem _ hmem) hother hseen
          · exact hnodup.1 (hsame ▸ List.mem_map_of_mem hmem)
        · rintro msgId ((hseen | rfl) | ⟨other, hmem, hother⟩)
          · exact .inl hseen
          · exact .inr ⟨entry, List.mem_cons_self, rfl, hunacked⟩
          · exact .inr ⟨other, List.mem_cons_of_mem _ hmem, hother⟩
      · rw [if_neg hunacked]
        refine (ih hlater hnodup.2 hrestoring fun other hmem =>
          hnew other (List.mem_cons_of_mem _ hmem)).mono ?_
        rintro msgId (hseen | ⟨other, hmem, hother⟩)
        · exact .inl hseen
        · exact .inr ⟨other, List.mem_cons_of_mem _ hmem, hother⟩

theorem foldl_deliveries (hreflects : replayed.Reflects (({} : Ledger).followAll log))
    (order : GoMap.Order Message) {entries : List (GoString × GoMap Message)}
    (hentries : ∀ entry ∈ entries, replayed.deli.lookup entry.1 = some entry.2)
    (hnodup : (entries.map Prod.fst).Nodup) (hrestoring : b.Restoring log seen)
    (hnew : ∀ entry ∈ entries, ∀ msgId msg, entry.2.lookup msgId = some msg →
      msg.hasUnackedSubs = true → ¬ seen msgId) :
    ∃ seen, (entries.foldl (restoreMessages order) b).Restoring log seen := by
  induction entries generalizing b seen with
  | nil => exact ⟨seen, hrestoring⟩
  | cons entry entries ih =>
      rw [List.map_cons, List.nodup_cons] at hnodup
      have hlater := fun other hmem => hentries other (List.mem_cons_of_mem entry hmem)
      have hmessage : ∀ other ∈ entry :: entries, ∀ msgId,
          replayed.message other.1 msgId = other.2.lookup msgId := by
        intro other hmem msgId
        simp [Replayed.message, Delivery.messages, hentries other hmem]
      have henum := order.enumerates entry.2
      rw [List.foldl_cons, restoreMessages]
      split_ifs
      · have hvisited : ∀ msg ∈ order.walk entry.2,
            replayed.message entry.1 msg.1 = some msg.2 := fun msg hmem =>
          (hmessage entry List.mem_cons_self msg.1).trans (henum.lookup_of_mem hmem)
        have hnext := foldl_messages hreflects hvisited henum.1 hrestoring
          fun msg hmem => hnew entry List.mem_cons_self msg.1 msg.2 (henum.lookup_of_mem hmem)
        refine ih hlater hnodup.2 hnext fun other hmem msgId msg hmsg hunacked => ?_
        rintro (hseen | ⟨found, hfound, rfl, hfoundUnacked⟩)
        · exact hnew other (List.mem_cons_of_mem _ hmem) msgId msg hmsg hunacked hseen
        · have hhere := (hreflects.pending entry.1 found.1 found.2).mp
            ⟨hvisited found hfound, hfoundUnacked⟩
          have hthere := (hreflects.pending other.1 found.1 msg).mp
            ⟨(hmessage other (List.mem_cons_of_mem _ hmem) _).trans hmsg, hunacked⟩
          rw [hhere] at hthere
          have hqueue : entry.1 = other.1 := congrArg Pending.queue (Option.some.inj hthere)
          exact hnodup.1 (hqueue ▸ List.mem_map_of_mem hmem)
      · exact ih hlater hnodup.2 hrestoring fun other hmem =>
          hnew other (List.mem_cons_of_mem _ hmem)

end Restoring

theorem Sane.restoreWAL (hsane : b.Sane) {replayed : Replayed}
    (hreflects : replayed.Reflects b.ledger) (order : RestoreOrder) :
    (restoreWAL b.log replayed order).Sane ∧ (restoreWAL b.log replayed order).log = b.log := by
  have hcat : replayed.cat = b.cat := hreflects.catalog.trans hsane.book.catalog.symm
  have hempty : Restoring { cat := replayed.cat, log := b.log } b.log fun _ => False := by
    refine ⟨⟨?_, .nil _, ⟨by simp, by simp, by simp, by simp, by simp⟩, by simp⟩, rfl,
      by simp⟩
    rw [hcat]
    exact hsane.book
  have hqueues := hempty.foldl_createFromWAL ((order.queues.walk replayed.cat).map Prod.fst)
  have henum := order.deliveries.enumerates replayed.deli
  obtain ⟨seen, hdone⟩ := Restoring.foldl_deliveries hreflects order.messages
    (fun entry hmem => henum.lookup_of_mem hmem) henum.1 hqueues
    fun entry hmem msgId msg hmsg hunacked hfalse => hfalse
  exact ⟨hdone.sane, hdone.log_eq⟩

theorem serve_restart {startup : Startup} (hfinds : startup.Finds b.log)
    (hadmits : ({} : Ledger).AdmitsAll b.log) (hserve : b.serve (.restart startup) = some next) :
    ∃ replayed : Replayed, replayed.Reflects b.ledger ∧
      next = restoreWAL b.log replayed startup.order := by
  obtain ⟨records, replayed, enough, hrecords, hreplay, hreflects⟩ := hfinds.recovers hadmits
  rw [serve] at hserve
  cases hfound : startup.records with
  | none =>
      rw [hfound] at hserve
      contradiction
  | some found =>
      have hsame := Startup.records_mono hfound (Nat.le_max_left startup.fuel enough)
      rw [hrecords _ (Nat.le_max_right _ _), Option.some.injEq] at hsame
      subst hsame
      rw [hfound] at hserve
      simp only [hreplay, Option.some.injEq] at hserve
      exact ⟨replayed, hreflects, hserve.symm⟩

theorem exists_serve_restart {startup : Startup} (hfinds : startup.Finds b.log)
    (hadmits : ({} : Ledger).AdmitsAll b.log) :
    ∃ replayed : Replayed, replayed.Reflects b.ledger ∧
      ∃ enough, ∀ fuel, enough ≤ fuel → b.serve (.restart { startup with fuel }) =
        some (restoreWAL b.log replayed startup.order) := by
  obtain ⟨records, replayed, enough, hrecords, hreplay, hreflects⟩ := hfinds.recovers hadmits
  refine ⟨replayed, hreflects, enough, fun fuel hfuel => ?_⟩
  simp only [serve, hrecords fuel hfuel, hreplay]

theorem sane_admits_run {events : List ServiceEvent} {b : Broker}
    (hmeets : Meets serve Orderly {} events) (hexec : exec serve {} events = some b) :
    b.Sane ∧ ({} : Ledger).AdmitsAll b.log := by
  have hstart : ({} : Broker).Sane ∧ ({} : Ledger).AdmitsAll ({} : Broker).log :=
    ⟨sane_initial, trivial⟩
  refine exec_invariant (P := fun b => b.Sane ∧ ({} : Ledger).AdmitsAll b.log) ?_ hstart
    hmeets hexec
  rintro b event next ⟨hsane, hadmits⟩ horderly hstep
  cases event with
  | live event =>
      exact ⟨hsane.step horderly.1 hstep,
        hsane.admits_step hadmits horderly.1 horderly.2.1 hstep⟩
  | restart startup =>
      obtain ⟨replayed, hreflects, rfl⟩ := serve_restart horderly hadmits hstep
      obtain ⟨hrestored, hlog⟩ := hsane.restoreWAL hreflects startup.order
      exact ⟨hrestored, by rwa [hlog]⟩

/-! That there are such files. -/

inductive Logs (b next : Broker) : Prop
  | nothing (hlog : next.log = b.log) (hcat : next.cat = b.cat)
  | record {request : Request} {rec : Record} (hrecord : b.cat.record request = .ok rec)
      (hlog : next.log = b.log ++ [rec]) (hcat : next.cat = b.cat.after rec)

theorem logs_request (b : Broker) (request : Request) : b.Logs (b.request request) := by
  unfold Broker.request
  cases hrecord : b.cat.record request with
  | error err => exact .nothing rfl rfl
  | ok rec => exact .record hrecord rfl rfl

theorem Logs.of_same (hlogs : b.Logs next) {other : Broker} (hlog : other.log = next.log)
    (hcat : other.cat = next.cat) : b.Logs other := by
  cases hlogs with
  | nothing hsame hsameCat => exact .nothing (hlog.trans hsame) (hcat.trans hsameCat)
  | record hrecord hgrows hafter => exact .record hrecord (hlog.trans hgrows) (hcat.trans hafter)

theorem log_updateObject (b : Broker) (object : Nat) (f : Queue → Queue) :
    (b.updateObject object f).log = b.log ∧ (b.updateObject object f).cat = b.cat := by
  unfold updateObject
  split <;> exact ⟨rfl, rfl⟩

theorem logs_of_step {event : BrokerEvent} (hstep : b.step event = some next) :
    b.Logs next := by
  cases steps_of_step hstep with
  | createQueue hmu name =>
      unfold Broker.createQueue
      split_ifs
      · exact .nothing rfl rfl
      · exact .nothing rfl rfl
      · split
        · exact .nothing rfl rfl
        · exact .record ‹_› rfl rfl
  | deleteQueue hmu name =>
      unfold Broker.deleteQueue
      split
      · exact .nothing rfl rfl
      · split
        · exact .nothing rfl rfl
        · exact .record ‹_› rfl rfl
  | unregister hmu =>
      obtain ⟨hlog, hcat⟩ := log_updateObject b _ Queue.close
      exact .nothing hlog hcat
  | editPolicies hrequest => exact logs_request b _
  | find queueName payload =>
      unfold Broker.find
      split <;> exact .nothing rfl rfl
  | @accept index call hcall uuid =>
      unfold Broker.accept
      split
      · exact .nothing rfl rfl
      · obtain ⟨hlog, hcat⟩ := log_updateObject _ call.object _
        exact (logs_request b _).of_same hlog hcat
  | register hmu | add hq hmsg => exact .nothing rfl rfl
  | work hstep =>
      simp only [step] at hstep
      split at hstep
      · contradiction
      · split at hstep
        · contradiction
        · cases hstep
          exact .nothing rfl rfl
        · cases hstep
          exact (logs_request b _).of_same rfl rfl

/-- A coordinator in service that has appended what the broker has logged, and nothing
else. -/
structure Mirrors (s : Node) (b : Broker) : Prop where
  up : ∃ c, s.status = .up c ∧ c.cat = b.cat
  log : requested s.log = b.log
  length : s.log.length = b.log.length

theorem Mirrors.append {s : Node} (hmirrors : Mirrors s b) (hsane : s.Sane)
    {request : Request} {rec : Record} (hrecord : b.cat.record request = .ok rec)
    (hlog : next.log = b.log ++ [rec]) (hcat : next.cat = b.cat.after rec)
    (hfits : rec.Fits) (hcount : s.log.length + 2 < 2 ^ 64) :
    s.Allows (.append (.caller request)) ∧
      ∃ s', s.step (.append (.caller request)) = some s' ∧ Mirrors s' next := by
  obtain ⟨⟨c, hup, hsameCat⟩, hrequested, hlength⟩ := hmirrors
  obtain ⟨status, log⟩ := s
  dsimp only at hup hrequested hlength hcount
  subst hup
  have hpending : c.toAppend (.caller request) = some rec := by
    simp only [Coordinator.toAppend, hsameCat, hrecord]
    rfl
  obtain ⟨dropped, closed, active, hserving, -⟩ := hsane.status
  obtain ⟨after, -, -, happend, -⟩ :=
    hserving.append (Coordinator.appends_of_toAppend hpending) hfits hcount
  obtain ⟨hbegin, hend⟩ := Catalog.ordinary_of_record hrecord
  have hstep : Node.step ⟨.up c, log⟩ (.append (.caller request)) =
      some ⟨.up (c.appended after rec c.log.nextLSN (.caller request)),
        log ++ [c.log.stamp rec]⟩ := by
    simp only [Node.step, hpending, happend]
  refine ⟨?_, _, hstep, ?_, ?_, ?_⟩
  · intro found hfound
    simp only [Node.pending, hpending, Option.map_some, Option.mem_def,
      Option.some.injEq] at hfound
    subst hfound
    exact hfits
  · exact ⟨_, rfl, by rw [hcat, ← hsameCat]; rfl⟩
  · rw [hlog, ← hrequested]
    have hlsn : { rec with lsn := 0 } = rec := by
      rw [← Catalog.lsn_of_record hrecord]
    simp [requested, Wal.stamp, hbegin, hend, hlsn]
  · simp [hlog, hlength]

/-- A coordinator that has come up for the first time. -/
def firstStart : List NodeEvent :=
  [.start {} 10, .clean, .clean, .clean]

def servedCatalog (s : Node) : Option Catalog :=
  match s.status with
  | .up c => some c.cat
  | _ => none

theorem exists_mirrors_initial :
    Meets Node.step Node.Allows Node.initial firstStart ∧
      ∃ s, exec Node.step Node.initial firstStart = some s ∧ Mirrors s {} := by
  have hrun : (exec Node.step Node.initial firstStart).map
      (fun s => (s.log.length, servedCatalog s)) = some (0, some ∅) := by
    decide +kernel
  refine ⟨by decide +kernel, ?_⟩
  obtain ⟨⟨status, log⟩, hexec, hresult⟩ := Option.map_eq_some_iff.mp hrun
  obtain ⟨hlength, hcat⟩ := Prod.mk.inj hresult
  cases List.length_eq_zero_iff.mp hlength
  cases status with
  | up c => exact ⟨_, hexec, ⟨c, rfl, Option.some.inj hcat⟩, rfl, rfl⟩
  | down dir => contradiction
  | starting w ckptThreshold scan stage => contradiction

/-- Coordinators within the limits can have appended the broker's log. -/
def Mirrored (b : Broker) : Prop :=
  ∃ history s, Meets Node.step Node.Allows Node.initial history ∧
    exec Node.step Node.initial history = some s ∧ Mirrors s b

theorem Mirrored.of_same (hmirrored : b.Mirrored) (hlog : next.log = b.log)
    (hcat : next.cat = b.cat) : next.Mirrored := by
  obtain ⟨history, s, hallows, hhistory, ⟨c, hup, hsame⟩, hrequested, hlength⟩ := hmirrored
  exact ⟨history, s, hallows, hhistory, ⟨c, hup, hsame.trans hcat.symm⟩,
    hrequested.trans hlog.symm, hlength.trans (congrArg List.length hlog.symm)⟩

theorem Mirrored.append (hmirrored : b.Mirrored) (hcount : b.log.length + 2 < 2 ^ 64)
    {request : Request} {rec : Record} (hrecord : b.cat.record request = .ok rec)
    (hlog : next.log = b.log ++ [rec]) (hcat : next.cat = b.cat.after rec)
    (hfits : rec.Fits) : next.Mirrored := by
  obtain ⟨history, s, hallows, hhistory, hmirrors⟩ := hmirrored
  rw [← hmirrors.length] at hcount
  obtain ⟨hallowed, s', hstep, hmirrors'⟩ :=
    hmirrors.append (Node.sane_run hallows hhistory hcount) hrecord hlog hcat hfits hcount
  exact ⟨history ++ [.append (.caller request)], s', meets_concat hallows hhistory hallowed,
    exec_append.mpr ⟨s, hhistory, exec_cons.mpr ⟨s', hstep, rfl⟩⟩, hmirrors'⟩

theorem mirrored_run {events : List ServiceEvent} {b : Broker}
    (hmeets : Meets serve Orderly {} events) (hexec : exec serve {} events = some b)
    (hcount : b.log.length + 2 < 2 ^ 64) : b.Mirrored := by
  have hstart : ({} : Broker).Sane ∧ ({} : Ledger).AdmitsAll ({} : Broker).log ∧
      (({} : Broker).log.length + 2 < 2 ^ 64 → ({} : Broker).Mirrored) := by
    obtain ⟨hallows, s, hfirst, hmirrors⟩ := exists_mirrors_initial
    exact ⟨sane_initial, trivial, fun _ => ⟨firstStart, s, hallows, hfirst, hmirrors⟩⟩
  refine (exec_invariant (P := fun b => b.Sane ∧ ({} : Ledger).AdmitsAll b.log ∧
    (b.log.length + 2 < 2 ^ 64 → b.Mirrored)) ?_ hstart hmeets hexec).2.2 hcount
  rintro b event next ⟨hsane, hadmits, hmirrored⟩ horderly hstep
  cases event with
  | live event =>
      refine ⟨hsane.step horderly.1 hstep,
        hsane.admits_step hadmits horderly.1 horderly.2.1 hstep, fun hcount => ?_⟩
      cases logs_of_step hstep with
      | nothing hlog hcat => exact (hmirrored (hlog ▸ hcount)).of_same hlog hcat
      | @record request rec hrecord hlog hcat =>
          have hfits : rec.Fits := by
            refine horderly.2.2 next hstep rec ?_
            rw [hlog, List.drop_left]
            exact List.mem_singleton_self rec
          rw [hlog, List.length_append] at hcount
          have hless : b.log.length + 2 < 2 ^ 64 := by omega
          exact (hmirrored hless).append hless hrecord hlog hcat hfits
  | restart startup =>
      obtain ⟨replayed, hreflects, rfl⟩ := serve_restart horderly hadmits hstep
      obtain ⟨hrestored, hlog⟩ := hsane.restoreWAL hreflects startup.order
      refine ⟨hrestored, by rwa [hlog],
        fun hcount => (hmirrored (hlog ▸ hcount)).of_same hlog ?_⟩
      rw [hrestored.book.catalog, hlog]
      exact hsane.book.catalog.symm

def byName : RestoreOrder := ⟨.sorted, .sorted, .sorted⟩

theorem exists_finds {events : List ServiceEvent} {b : Broker}
    (hmeets : Meets serve Orderly {} events) (hexec : exec serve {} events = some b)
    (hcount : b.log.length + 2 < 2 ^ 64) : ∃ startup : Startup, startup.Finds b.log := by
  obtain ⟨history, s, hallows, hhistory, hmirrors⟩ := mirrored_run hmeets hexec hcount
  exact ⟨⟨history, 0, .sync, 0, byName⟩, hallows, s, hhistory, hmirrors.log,
    hmirrors.length ▸ hcount⟩

/-- A broker can always be started again: its log replays, its coordinators can have
written that log, and whatever files they have left, with their checkpoints and crashes,
are read without an error and replay. -/
theorem log_always_replays {events : List ServiceEvent} {b : Broker}
    (hmeets : Meets serve Orderly {} events) (hexec : exec serve {} events = some b) :
    (∃ replayed, Replayed.replay {} b.log = .ok replayed) ∧
      (b.log.length + 2 < 2 ^ 64 → ∃ startup : Startup, startup.Finds b.log) ∧
      ∀ startup : Startup, startup.Finds b.log →
        ∃ enough, ∀ fuel, enough ≤ fuel → ∃ records replayed next,
          { startup with fuel }.records = some records ∧
          Replayed.replay {} records = .ok replayed ∧
          b.serve (.restart { startup with fuel }) = some next := by
  obtain ⟨-, hadmits⟩ := sane_admits_run hmeets hexec
  refine ⟨?_, exists_finds hmeets hexec, fun startup hfinds => ?_⟩
  · obtain ⟨replayed, hreplay, -⟩ := Replayed.reflects_empty.replay hadmits
    exact ⟨replayed, hreplay⟩
  · obtain ⟨records, replayed, enough, hrecords, hreplay, -⟩ := hfinds.recovers hadmits
    refine ⟨enough, fun fuel hfuel => ⟨records, replayed,
      restoreWAL b.log replayed startup.order, hrecords fuel hfuel, hreplay, ?_⟩⟩
    simp only [serve, hrecords fuel hfuel, hreplay]

/-- A worker holds a message and its subscriber has answered when the queue is
deleted. -/
def strayAckTrace : List ServiceEvent :=
  [.live (.createQueue (lit "q")), .live .register,
    .live (.addSubscriber ⟨lit "a", lit "u", 3⟩ (lit "q")),
    .live (.find (lit "q") (lit "hi")), .live (.accept 0 (lit "1")), .live (.add 0 0),
    .live (.work 0 .pop),
    .live (.work 0 (.deliver .sorted fun _ => true)),
    .live (.deleteQueue (lit "q")), .live .unregister, .live (.work 0 .settle)]

def replayError (records : List Record) : Option ReplayError :=
  match Replayed.replay {} records with
  | .error err => some err
  | .ok _ => none

def appends (records : List Record) : List SessionEvent :=
  .start (Config.segSize {}) .sync :: records.map fun rec => .append rec {}

theorem ack_after_deletion_stops_recovery :
    ∃ b s, exec serve {} strayAckTrace = some b ∧
      replayError b.log = some (.noMessages (lit "q")) ∧
      exec Sessions.step Sessions.initial (appends b.log) = some s ∧
      (∃ enough, ∀ fuel, enough ≤ fuel →
        Sessions.reread s.dir (Config.segSize {}) .sync fuel = some s.written) ∧
      replayError s.written = some (.noMessages (lit "q")) := by
  have hrun : (exec serve {} strayAckTrace).map (fun b =>
      (replayError b.log,
        decide (∀ rec ∈ b.log, rec.Fits ∧ rec.opType ≠ .beginCheckpoint ∧
          rec.opType ≠ .endCheckpoint),
        (exec Sessions.step Sessions.initial (appends b.log)).map fun s =>
          (s.written.length, replayError s.written))) =
      some (some (.noMessages (lit "q")), true,
        some (5, some (.noMessages (lit "q")))) := by
    decide +kernel
  obtain ⟨b, hexec, hresult⟩ := Option.map_eq_some_iff.mp hrun
  simp only [Prod.mk.injEq, decide_eq_true_eq] at hresult
  obtain ⟨hfails, hplain, hwritten⟩ := hresult
  obtain ⟨s, hsession, hresult⟩ := Option.map_eq_some_iff.mp hwritten
  obtain ⟨hlength, hfails'⟩ := Prod.mk.inj hresult
  have hfaultless : ∀ event ∈ appends b.log, Sessions.Faultless event := by
    intro event hmem
    rcases List.mem_cons.mp hmem with rfl | hrest
    · trivial
    · obtain ⟨rec, hrec, rfl⟩ := List.mem_map.mp hrest
      exact ⟨rfl, hplain rec hrec⟩
  have hrecorded := Sessions.recorded_run (Sessions.meets_of_faultless hfaultless) hsession
    (by omega)
  exact ⟨b, s, hexec, hfails, hsession, hrecorded.reread _ _, hfails'⟩

/-- The calls at the coordinator up to a first crash, and those after it. -/
def callsBefore : List NodeEvent :=
  [.append (.caller (.createQueue (lit "q"))),
    .append (.caller (.updateSubPolicy (lit "q") ⟨lit "a", lit "u", 3⟩)),
    .append (.caller (.enqueue (lit "q") (lit "q-1") (lit "hi"))), .crash]

def callsAfter : List NodeEvent :=
  [.append (.caller (.ack (lit "q") (lit "q-1") (lit "a"))),
    .append (.caller (.deleteQueue (lit "q"))), .crash]

def restartCalls : List NodeEvent := firstStart ++ callsBefore ++ firstStart ++ callsAfter

def startOn (history : List NodeEvent) : Startup :=
  { history, maxSegSize := 30, mode := .sync, fuel := 20, order := byName }

/-- A message accepted before a restart, acked by the new worker after it, and then its
queue is deleted. -/
def restartTrace : List ServiceEvent :=
  [.live (.createQueue (lit "q")), .live .register,
    .live (.addSubscriber ⟨lit "a", lit "u", 3⟩ (lit "q")),
    .live (.find (lit "q") (lit "hi")), .live (.accept 0 (lit "1")),
    .restart (startOn (firstStart ++ callsBefore)), .live (.work 0 .pop),
    .live (.work 0 (.deliver .sorted fun _ => true)),
    .live (.work 0 .settle), .live (.deleteQueue (lit "q")), .live .unregister]

set_option maxRecDepth 20000 in
theorem restored_message_replays :
    ∃ b, exec serve {} restartTrace = some b ∧ b.log.length = 5 ∧
      (∃ replayed, Replayed.replay {} b.log = .ok replayed) ∧
      ∃ enough, ∀ fuel, enough ≤ fuel → ∃ records replayed next,
        { startOn restartCalls with fuel }.records = some records ∧
        Replayed.replay {} records = .ok replayed ∧
        b.serve (.restart { startOn restartCalls with fuel }) = some next := by
  have hbroker : (exec serve {} restartTrace).map (fun b =>
      (b.log.length, decide ((startOn restartCalls).Finds b.log))) = some (5, true) := by
    decide +kernel
  have hmeets : Meets serve Orderly {} restartTrace := by
    decide +kernel
  obtain ⟨b, hb, hresult⟩ := Option.map_eq_some_iff.mp hbroker
  simp only [Prod.mk.injEq, decide_eq_true_eq] at hresult
  obtain ⟨hlength, hfinds⟩ := hresult
  obtain ⟨hreplays, -, hcomesUp⟩ := log_always_replays hmeets hb
  exact ⟨b, hb, hlength, hreplays, hcomesUp _ hfinds⟩

end Broker

end SimonMQ.Durable
