import SimonMQ.Durable.Coordinator

namespace SimonMQ.Durable

open SimonMQ.Go

/-! Which logs the service writes: each record passed the coordinator's checks, and
the workers keep to the messages and subscribers they were given.  Such a log is
admissible as soon as it replays. -/

/-- The message ids of a log's decodable enqueues. -/
def enqueuedIds (records : List Record) : List GoString :=
  records.filterMap fun rec => rec.enqueued.map Enqueue.msgId

/-- What the callers see to: message ids are not used twice, and a worker acks for a
subscriber of the message's snapshot, and once. -/
structure Disciplined (log : List Record) : Prop where
  ids : (enqueuedIds log).Nodup
  once : (log.filterMap Record.acked).Nodup
  subscribers : ∀ rec ∈ log, ∀ other ∈ log, ∀ enq ack, rec.enqueued = some enq →
    other.acked = some ack → enq.msgId = ack.msgId → ack.subName ∈ enq.subList.keys

instance (log : List Record) : Decidable (Disciplined log) :=
  decidable_of_iff
    ((enqueuedIds log).Nodup ∧
      (log.filterMap Record.acked).Nodup ∧
      ∀ rec ∈ log, ∀ other ∈ log, ∀ enq ∈ rec.enqueued, ∀ ack ∈ other.acked,
        enq.msgId = ack.msgId → ack.subName ∈ enq.subList.keys)
    ⟨fun h => ⟨h.1, h.2.1, fun rec hrec other hother enq ack henq hack =>
        h.2.2 rec hrec other hother enq henq ack hack⟩,
      fun h => ⟨h.ids, h.once, fun rec hrec other hother enq henq ack hack =>
        h.subscribers rec hrec other hother enq ack henq hack⟩⟩

theorem Disciplined.of_prefix {log longer : List Record} (hle : log <+: longer)
    (hdisciplined : Disciplined longer) : Disciplined log where
  ids := hdisciplined.ids.sublist (hle.sublist.filterMap _)
  once := hdisciplined.once.sublist (hle.sublist.filterMap _)
  subscribers := fun rec hrec other hother =>
    hdisciplined.subscribers rec (hle.subset hrec) other (hle.subset hother)

/-- What the coordinator has checked about a record it appends. -/
def Catalog.Vouches (cat : Catalog) (rec : Record) : Prop :=
  ∃ effect, rec.effect = some effect ∧
    match effect with
    | .subscribe queue _ => queue ∈ cat
    | .unsubscribe queue _ => queue ∈ cat
    | .accept queue _ _ subList => queue ∈ cat ∧ KeyedByName subList
    | _ => True

/-- Each record of the log was checked against the catalog of its moment. -/
def Genuine (log : List Record) : Prop :=
  ∀ before rec, before ++ [rec] <+: log → ({} : Ledger).AdmitsAll before →
    Catalog.Vouches (({} : Ledger).followAll before).catalog rec

theorem Genuine.of_prefix {log longer : List Record} (hle : log <+: longer)
    (hgenuine : Genuine longer) : Genuine log :=
  fun before rec hat => hgenuine before rec (hat.trans hle)

theorem Genuine.concat {log : List Record} {rec : Record} (hgenuine : Genuine log)
    (hvouches : ({} : Ledger).AdmitsAll log →
      Catalog.Vouches (({} : Ledger).followAll log).catalog rec) :
    Genuine (log ++ [rec]) := by
  intro before other hat hadmits
  rcases List.prefix_concat_iff.mp hat with heq | hearlier
  · obtain ⟨rfl, hrec⟩ := List.append_inj' heq rfl
    rw [List.singleton_inj.mp hrec]
    exact hvouches hadmits
  · exact hgenuine before other hearlier hadmits

/-! The catalog keeps its policies under their own names, and so do the snapshots
that `Enqueue` takes of it. -/

theorem all_editPolicies {P : GoMap SubPolicy → Prop} {ledger : Ledger}
    (hall : ledger.catalog.All P) (queue : GoString)
    {edit : GoMap SubPolicy → GoMap SubPolicy}
    (hedit : ∀ policies, P policies → P (edit policies)) :
    (ledger.editPolicies queue edit).catalog.All P := by
  unfold Ledger.editPolicies
  cases hqueue : ledger.catalog.lookup queue with
  | none => exact hall
  | some policies => exact hall.insert queue (hedit policies (hall queue policies hqueue))

theorem all_keyed_apply {ledger : Ledger} (hkeyed : ledger.catalog.All KeyedByName)
    (effect : Effect) : (ledger.apply effect).catalog.All KeyedByName := by
  cases effect with
  | create queue => exact hkeyed.insert queue keyedByName_empty
  | delete queue => exact hkeyed.erase queue
  | subscribe queue policy =>
      exact all_editPolicies hkeyed queue fun _ hpolicies => hpolicies.insert policy
  | unsubscribe queue subName =>
      exact all_editPolicies hkeyed queue fun _ hpolicies => hpolicies.erase subName
  | accept queue msgId content subList =>
      rw [Ledger.apply]
      split_ifs <;> exact hkeyed
  | settle queue msgId subName =>
      rw [Ledger.apply, Ledger.catalog_settle]
      exact hkeyed
  | nothing => exact hkeyed

theorem all_keyed_followAll {ledger : Ledger} (hkeyed : ledger.catalog.All KeyedByName)
    (records : List Record) : (ledger.followAll records).catalog.All KeyedByName := by
  induction records generalizing ledger with
  | nil => exact hkeyed
  | cons rec records ih =>
      apply ih
      unfold Ledger.follow
      split
      · exact hkeyed
      · exact all_keyed_apply hkeyed _

theorem keyedByName_ofList {entries : List (GoString × SubPolicy)}
    (hentries : ∀ entry ∈ entries, entry.2.subName = entry.1) {initial : GoMap SubPolicy}
    (hinitial : KeyedByName initial) : KeyedByName (GoMap.ofList entries initial) := by
  induction entries generalizing initial with
  | nil => exact hinitial
  | cons entry entries ih =>
      rw [GoMap.ofList_cons]
      apply ih fun other hmem => hentries other (List.mem_cons_of_mem _ hmem)
      rw [← hentries entry List.mem_cons_self]
      exact hinitial.insert entry.2

theorem keyedByName_coerceMap {subList : GoMap SubPolicy} (hkeyed : KeyedByName subList) :
    KeyedByName (Json.coerceMap SubPolicy.coerce subList) := by
  apply keyedByName_ofList _ keyedByName_empty
  intro entry hmem
  obtain ⟨source, hsource, rfl⟩ := List.mem_map.mp hmem
  have hname := hkeyed source.1 source.2
    ((sortedEntries_enumerates subList).lookup_of_mem hsource)
  exact congrArg Utf8.toValid hname

theorem Catalog.require_eq_ok {cat : Catalog} {queueName : GoString} {rec found : Record}
    (hrequire : cat.require queueName rec = .ok found) : queueName ∈ cat ∧ found = rec := by
  unfold Catalog.require at hrequire
  split_ifs at hrequire with hqueue
  cases hrequire
  exact ⟨hqueue, rfl⟩

inductive Catalog.Writes (cat : Catalog) : Request → Effect → Prop
  | createQueue (queue : GoString) : cat.Writes (.createQueue queue) (.create queue)
  | deleteQueue {queue : GoString} (hqueue : queue ∈ cat) :
      cat.Writes (.deleteQueue queue) (.delete queue)
  | updateSubPolicy {queue : GoString} (hqueue : queue ∈ cat) (policy : SubPolicy) :
      cat.Writes (.updateSubPolicy queue policy) (.subscribe queue policy.coerce)
  | deleteSubPolicy {queue : GoString} (hqueue : queue ∈ cat) (subName : GoString) :
      cat.Writes (.deleteSubPolicy queue subName) (.unsubscribe queue (Utf8.toValid subName))
  | enqueue {queue : GoString} {subList : GoMap SubPolicy}
      (hlookup : cat.lookup queue = some subList) (msgId content : GoString) :
      cat.Writes (.enqueue queue msgId content)
        (.accept queue (Utf8.toValid msgId) (Utf8.toValid content)
          (Json.coerceMap SubPolicy.coerce subList))
  | ack (queue msgId subName : GoString) :
      cat.Writes (.ack queue msgId subName)
        (.settle queue (Utf8.toValid msgId) (Utf8.toValid subName))

theorem Catalog.writes_of_record {cat : Catalog} {request : Request} {rec : Record}
    (hrecord : cat.record request = .ok rec) :
    ∃ effect, rec.effect = some effect ∧ cat.Writes request effect := by
  cases request with
  | createQueue queueName =>
      cases hrecord
      exact ⟨_, rfl, .createQueue queueName⟩
  | deleteQueue queueName =>
      obtain ⟨hqueue, rfl⟩ := require_eq_ok hrecord
      exact ⟨_, rfl, .deleteQueue hqueue⟩
  | updateSubPolicy queueName policy =>
      obtain ⟨hqueue, rfl⟩ := require_eq_ok hrecord
      refine ⟨_, ?_, .updateSubPolicy hqueue policy⟩
      simp [Record.effect, decodeSubPolicy_encodeSubPolicy]
  | deleteSubPolicy queueName subName =>
      obtain ⟨hqueue, rfl⟩ := require_eq_ok hrecord
      refine ⟨_, ?_, .deleteSubPolicy hqueue subName⟩
      simp [Record.effect, decodeSubPolicy_encodeSubPolicy, SubPolicy.coerce]
  | enqueue queueName msgId content =>
      simp only [Catalog.record] at hrecord
      cases hlookup : cat.lookup queueName with
      | none => simp [hlookup] at hrecord
      | some subList =>
          rw [hlookup] at hrecord
          cases hrecord
          refine ⟨_, ?_, .enqueue hlookup msgId content⟩
          simp only [Record.effect, decodeEnqueue_encodeEnqueue, Option.map_some,
            Enqueue.coerce]
  | ack queueName msgId subName =>
      cases hrecord
      refine ⟨_, ?_, .ack queueName msgId subName⟩
      simp [Record.effect, decodeAck_encodeAck, Ack.coerce]

theorem Catalog.writes_of_effect {cat : Catalog} {request : Request} {rec : Record}
    {effect : Effect} (hrecord : cat.record request = .ok rec)
    (heffect : rec.effect = some effect) : cat.Writes request effect := by
  obtain ⟨found, hfound, hwrites⟩ := writes_of_record hrecord
  rw [heffect] at hfound
  cases hfound
  exact hwrites

theorem Catalog.vouches_of_record {cat : Catalog} (hkeyed : GoMap.All KeyedByName cat)
    {request : Request} {rec : Record} (hrecord : cat.record request = .ok rec) :
    cat.Vouches rec := by
  obtain ⟨effect, heffect, hwrites⟩ := writes_of_record hrecord
  refine ⟨effect, heffect, ?_⟩
  cases hwrites with
  | createQueue queue => trivial
  | deleteQueue hqueue => trivial
  | updateSubPolicy hqueue policy => exact hqueue
  | deleteSubPolicy hqueue subName => exact hqueue
  | enqueue hlookup msgId content =>
      exact ⟨Finmap.mem_iff.mpr ⟨_, hlookup⟩, keyedByName_coerceMap (hkeyed _ _ hlookup)⟩
  | ack queue msgId subName => trivial

theorem Catalog.after_eq {ledger : Ledger} {rec : Record} {effect : Effect}
    (heffect : rec.effect = some effect) (hvouches : Catalog.Vouches ledger.catalog rec) :
    Catalog.after ledger.catalog rec = (ledger.apply effect).catalog := by
  obtain ⟨found, hfound, hvouched⟩ := hvouches
  rw [heffect] at hfound
  cases hfound
  cases hop : rec.opType with
  | enqueue =>
      simp only [Record.effect, hop, Option.map_eq_some_iff] at heffect
      obtain ⟨enq, _, rfl⟩ := heffect
      simp only [Catalog.after, hop, Ledger.apply]
      split_ifs <;> rfl
  | ack =>
      simp only [Record.effect, hop, Option.map_eq_some_iff] at heffect
      obtain ⟨ack, _, rfl⟩ := heffect
      simp only [Catalog.after, hop, Ledger.apply, Ledger.catalog_settle]
  | createQueue =>
      simp only [Record.effect, hop, Option.some.injEq] at heffect
      subst heffect
      simp only [Catalog.after, hop, Catalog.processRecord, Catalog.createQueue, Ledger.apply]
  | deleteQueue =>
      simp only [Record.effect, hop, Option.some.injEq] at heffect
      subst heffect
      simp only [Catalog.after, hop, Catalog.processRecord, Catalog.removeQueue, Ledger.apply]
  | updateSubPolicy =>
      simp only [Record.effect, hop, Option.map_eq_some_iff] at heffect
      obtain ⟨policy, hdecode, rfl⟩ := heffect
      obtain ⟨policies, hpolicies⟩ := Ledger.mem_catalog_iff.mp hvouched
      simp only [Catalog.after, hop, Catalog.processRecord, Catalog.updateSubPolicy,
        Catalog.editPolicies, hdecode, hpolicies, Ledger.apply, Ledger.editPolicies]
  | deleteSubPolicy =>
      simp only [Record.effect, hop, Option.map_eq_some_iff] at heffect
      obtain ⟨policy, hdecode, rfl⟩ := heffect
      obtain ⟨policies, hpolicies⟩ := Ledger.mem_catalog_iff.mp hvouched
      simp only [Catalog.after, hop, Catalog.processRecord, Catalog.removeSubPolicy,
        Catalog.editPolicies, hdecode, hpolicies, Ledger.apply, Ledger.editPolicies]
  | beginCheckpoint =>
      simp only [Record.effect, hop, Option.some.injEq] at heffect
      subst heffect
      simp only [Catalog.after, hop, Catalog.processRecord, Ledger.apply]
  | endCheckpoint =>
      simp only [Record.effect, hop, Option.some.injEq] at heffect
      subst heffect
      simp only [Catalog.after, hop, Catalog.processRecord, Ledger.apply]
  | other code hcode => simp [Record.effect, hop] at heffect

/-! What a replayed message shows was in the log. -/

/-- The message was enqueued under the id, and each of its acks was recorded. -/
structure Message.Recorded (msg : Message) (log : List Record) (msgId : GoString) :
    Prop where
  enqueued : ∃ rec ∈ log, ∃ enq, rec.enqueued = some enq ∧ enq.msgId = msgId ∧
    enq.subList = msg.subList
  acked : ∀ subName ∈ msg.ackedSubs, ∃ rec ∈ log, rec.acked = some ⟨msgId, subName⟩

theorem Message.Recorded.mono {msg : Message} {log longer : List Record}
    {msgId : GoString} (hrecorded : msg.Recorded log msgId) (hle : log ⊆ longer) :
    msg.Recorded longer msgId where
  enqueued := by
    obtain ⟨rec, hmem, hrec⟩ := hrecorded.enqueued
    exact ⟨rec, hle hmem, hrec⟩
  acked := fun subName hsub => by
    obtain ⟨rec, hmem, hrec⟩ := hrecorded.acked subName hsub
    exact ⟨rec, hle hmem, hrec⟩

theorem acked_of_effect {rec : Record} {queue msgId subName : GoString}
    (heffect : rec.effect = some (.settle queue msgId subName)) :
    rec.opType = .ack ∧ rec.queueName = queue ∧
      decodeAck rec.payload = some ⟨msgId, subName⟩ := by
  unfold Record.effect at heffect
  split at heffect <;> simp at heffect
  · rename_i hop
    obtain ⟨ack, hdecode, hqueue, hid, hsub⟩ := heffect
    refine ⟨hop, hqueue, ?_⟩
    rw [hdecode, ← hid, ← hsub]

theorem Replayed.message_replayRecord {state next : Replayed} {rec : Record}
    (hnext : state.replayRecord rec = .ok next) {queue msgId : GoString} {msg : Message}
    (hmsg : next.message queue msgId = some msg) :
    state.message queue msgId = some msg ∨
      (∃ enq, rec.enqueued = some enq ∧ enq.msgId = msgId ∧
        msg = ⟨enq.msgContent, enq.subList, ∅⟩) ∨
      ∃ old subName, state.message queue msgId = some old ∧
        rec.acked = some ⟨msgId, subName⟩ ∧ msg = old.markAcked subName := by
  have hunchanged : next.deli = state.deli → state.message queue msgId = some msg := by
    intro hdeli
    rwa [message, hdeli] at hmsg
  unfold replayRecord at hnext
  split at hnext
  · rename_i hop
    simp only [Delivery.processEnqueue, hop, ne_eq, not_true_eq_false, if_false] at hnext
    cases hdecode : decodeEnqueue rec.payload with
    | none => simp [hdecode] at hnext
    | some enq =>
        simp only [hdecode] at hnext
        cases hnext
        rw [message_setMessage] at hmsg
        split_ifs at hmsg with hsame
        · cases hmsg
          exact .inr (.inl ⟨enq, by simp [Record.enqueued, hop, hdecode], hsame.2.symm, rfl⟩)
        · exact .inl hmsg
  · rename_i hop
    simp only [Delivery.processAck, hop, ne_eq, not_true_eq_false, if_false] at hnext
    cases hdecode : decodeAck rec.payload with
    | none => simp [hdecode] at hnext
    | some ack =>
        simp only [hdecode] at hnext
        cases hmessages : state.deli.lookup rec.queueName with
        | none => simp [hmessages] at hnext
        | some messages =>
            simp only [hmessages] at hnext
            cases hfound : messages.lookup ack.msgId with
            | none => simp [hfound] at hnext
            | some old =>
                simp only [hfound] at hnext
                cases hsub : old.subList.lookup ack.subName with
                | none =>
                    simp only [hsub] at hnext
                    cases hnext
                    exact .inl hmsg
                | some policy =>
                    simp only [hsub] at hnext
                    cases hnext
                    have hset : state.deli.insert rec.queueName
                        (messages.insert ack.msgId (old.markAcked ack.subName)) =
                        state.deli.setMessage rec.queueName ack.msgId
                          (old.markAcked ack.subName) := by
                      simp only [Delivery.setMessage, Delivery.messages, hmessages,
                        Option.getD_some]
                    rw [hset, message_setMessage] at hmsg
                    split_ifs at hmsg with hsame
                    · cases hmsg
                      obtain ⟨rfl, rfl⟩ := hsame
                      refine .inr (.inr ⟨old, ack.subName, ?_, ?_, rfl⟩)
                      · simpa [message, Delivery.messages, hmessages] using hfound
                      · simp [Record.acked, hop, hdecode]
                    · exact .inl hmsg
  · rename_i hop
    simp only [Catalog.processRecord, hop] at hnext
    cases hnext
    rw [message_deleteQueue] at hmsg
    split_ifs at hmsg
    exact .inl hmsg
  · split at hnext
    · contradiction
    · cases hnext
      exact .inl (hunchanged rfl)

theorem Replayed.replay_concat {log : List Record} {rec : Record} {start state : Replayed}
    (hreplay : replay start (log ++ [rec]) = .ok state) :
    ∃ middle, replay start log = .ok middle ∧ middle.replayRecord rec = .ok state := by
  obtain ⟨middle, hmiddle, hlast⟩ := replay_append.mp hreplay
  refine ⟨middle, hmiddle, ?_⟩
  simp only [replay] at hlast
  split at hlast
  · contradiction
  · rename_i next hnext
    cases hlast
    exact hnext

theorem Replayed.recorded_of_replay {log : List Record} {state : Replayed}
    (hreplay : Replayed.replay {} log = .ok state) {queue msgId : GoString}
    {msg : Message} (hmsg : state.message queue msgId = some msg) :
    msg.Recorded log msgId := by
  induction log using List.reverseRecOn generalizing state msg with
  | nil =>
      cases hreplay
      simp [message, Delivery.messages] at hmsg
  | append_singleton log rec ih =>
      obtain ⟨middle, hmiddle, hnext⟩ := replay_concat hreplay
      have hsubset : log ⊆ log ++ [rec] := List.subset_append_left _ _
      rcases message_replayRecord hnext hmsg with
        hold | ⟨enq, henq, rfl, rfl⟩ | ⟨old, subName, hold, hack, rfl⟩
      · exact (ih hmiddle hold).mono hsubset
      · exact ⟨⟨rec, by simp, enq, henq, rfl, rfl⟩, by simp⟩
      · have hrecorded := (ih hmiddle hold).mono hsubset
        refine ⟨hrecorded.enqueued, fun other hother => ?_⟩
        rcases Finset.mem_insert.mp hother with rfl | hearlier
        · exact ⟨rec, by simp, hack⟩
        · exact hrecorded.acked other hearlier

theorem Replayed.message_of_ack {state next : Replayed} {rec : Record} {ack : Ack}
    (hnext : state.replayRecord rec = .ok next) (hop : rec.opType = .ack)
    (hdecode : decodeAck rec.payload = some ack) :
    ∃ msg, state.message rec.queueName ack.msgId = some msg := by
  simp only [replayRecord, hop, Delivery.processAck, ne_eq, not_true_eq_false, if_false,
    hdecode] at hnext
  cases hmessages : state.deli.lookup rec.queueName with
  | none => simp [hmessages] at hnext
  | some messages =>
      simp only [hmessages] at hnext
      cases hfound : messages.lookup ack.msgId with
      | none => simp [hfound] at hnext
      | some msg => exact ⟨msg, by simpa [message, Delivery.messages, hmessages] using hfound⟩

theorem admitsAll_of_replay {log : List Record} {state : Replayed}
    (hgenuine : Genuine log) (hdisciplined : Disciplined log)
    (hreplay : Replayed.replay {} log = .ok state) : ({} : Ledger).AdmitsAll log := by
  induction log using List.reverseRecOn generalizing state with
  | nil => trivial
  | append_singleton log rec ih =>
      have hle : log <+: log ++ [rec] := List.prefix_append _ _
      obtain ⟨middle, hmiddle, hlast⟩ := Replayed.replay_concat hreplay
      have hadmits := ih (hgenuine.of_prefix hle) (hdisciplined.of_prefix hle) hmiddle
      obtain ⟨_, hsame, hreflects⟩ := Replayed.reflects_empty.replay hadmits
      rw [hmiddle] at hsame
      cases hsame
      obtain ⟨effect, heffect, hvouched⟩ := hgenuine log rec List.prefix_rfl hadmits
      refine Ledger.admitsAll_append.mpr ⟨hadmits, ⟨effect, heffect, ?_⟩, trivial⟩
      cases effect with
      | create queue => trivial
      | delete queue => trivial
      | subscribe queue policy => exact hvouched
      | unsubscribe queue subName => exact hvouched
      | nothing => trivial
      | accept queue msgId content subList =>
          refine ⟨hvouched.1, ?_, hvouched.2⟩
          cases hpending : (({} : Ledger).followAll log).pending.lookup msgId with
          | none => rfl
          | some msg =>
              exfalso
              obtain ⟨hmsg, _⟩ := (hreflects.pending msg.queue msgId
                ⟨msg.content, msg.subList, msg.acked⟩).mpr hpending
              obtain ⟨other, hother, enq, henq, hid, _⟩ :=
                (Replayed.recorded_of_replay hmiddle hmsg).enqueued
              have hfound := (accepted_of_effect heffect).2
              have hids := hdisciplined.ids
              rw [enqueuedIds, List.filterMap_append, List.nodup_append] at hids
              refine hids.2.2 msgId (List.mem_filterMap.mpr ⟨other, hother, ?_⟩) msgId
                (List.mem_filterMap.mpr ⟨rec, by simp, ?_⟩) rfl
              · simp [henq, hid]
              · simp [hfound]
      | settle queue msgId subName =>
          obtain ⟨hop, rfl, hdecode⟩ := acked_of_effect heffect
          have hack : rec.acked = some ⟨msgId, subName⟩ := by
            simp [Record.acked, hop, hdecode]
          obtain ⟨msg, hmsg⟩ := Replayed.message_of_ack hlast hop hdecode
          have hrecorded := Replayed.recorded_of_replay hmiddle hmsg
          obtain ⟨other, hother, enq, henq, hid, hsubs⟩ := hrecorded.enqueued
          have hsub : subName ∈ msg.subList.keys := by
            rw [← hsubs]
            exact hdisciplined.subscribers other (by simp [hother]) rec (by simp) enq _
              henq hack hid
          have hunacked : subName ∉ msg.ackedSubs := by
            intro hmem
            obtain ⟨earlier, hearlier, hsame⟩ := hrecorded.acked subName hmem
            have honce := hdisciplined.once
            rw [List.filterMap_append, List.nodup_append] at honce
            exact honce.2.2 _ (List.mem_filterMap.mpr ⟨earlier, hearlier, hsame⟩) _
              (List.mem_filterMap.mpr ⟨rec, by simp, hack⟩) rfl
          have hwaits : msg.hasUnackedSubs = true := by
            rw [Message.hasUnackedSubs, decide_eq_true_eq]
            exact fun hall => hunacked (hall hsub)
          exact ⟨_, (hreflects.pending rec.queueName msgId msg).mp ⟨hmsg, hwaits⟩, rfl,
            hsub, hunacked⟩

end SimonMQ.Durable
