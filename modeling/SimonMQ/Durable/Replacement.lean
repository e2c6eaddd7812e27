import SimonMQ.Durable.Discipline

namespace SimonMQ.Durable

open SimonMQ.Go

/-! Compaction may replace any front of a log that replays. -/

/-- What the writers of a log see to, beyond that it replays: messages go to existing
queues with a snapshot keyed by name, ids are not used twice, and acks are for
subscribers of the snapshot, once each. -/
structure Wellformed (log : List Record) : Prop where
  queues : ∀ before rec state, before ++ [rec] <+: log → rec.opType = .enqueue →
    Replayed.replay {} before = .ok state → rec.queueName ∈ state.cat
  keyed : ∀ rec ∈ log, ∀ enq, rec.enqueued = some enq → KeyedByName enq.subList
  disciplined : Disciplined log

theorem prefix_concat_iff_mem_inits {log before : List Record} {rec : Record} :
    before ++ [rec] <+: log ↔ before ∈ log.inits ∧ log[before.length]? = some rec := by
  rw [List.mem_inits]
  constructor
  · rintro ⟨after, rfl⟩
    exact ⟨⟨rec :: after, by simp⟩, by simp⟩
  · rintro ⟨⟨after, rfl⟩, hrec⟩
    cases after with
    | nil => simp at hrec
    | cons other after =>
        simp only [List.getElem?_append_right (Nat.le_refl _), Nat.sub_self,
          List.getElem?_cons_zero, Option.some.injEq] at hrec
        exact ⟨after, by simp [hrec]⟩

instance (log : List Record) : Decidable (Wellformed log) :=
  decidable_of_iff
    ((∀ before ∈ log.inits, ∀ rec ∈ log[before.length]?, rec.opType = .enqueue →
        ∀ state ∈ (Replayed.replay {} before).toOption, rec.queueName ∈ state.cat) ∧
      (∀ rec ∈ log, ∀ enq ∈ rec.enqueued, KeyedByName enq.subList) ∧ Disciplined log) (by
    constructor
    · rintro ⟨hqueues, hkeyed, hdisciplined⟩
      refine ⟨fun before rec state hat hop hstate => ?_, hkeyed, hdisciplined⟩
      obtain ⟨hinit, hrec⟩ := prefix_concat_iff_mem_inits.mp hat
      exact hqueues before hinit rec hrec hop state (by simp [hstate, Except.toOption])
    · rintro ⟨hqueues, hkeyed, hdisciplined⟩
      refine ⟨fun before hinit rec hrec hop state hstate => ?_, hkeyed, hdisciplined⟩
      refine hqueues before rec state (prefix_concat_iff_mem_inits.mpr ⟨hinit, hrec⟩) hop ?_
      cases hreplay : Replayed.replay {} before with
      | error err => simp [hreplay, Except.toOption] at hstate
      | ok found =>
          simp only [hreplay, Except.toOption, Option.mem_def, Option.some.injEq] at hstate
          rw [hstate])

theorem Replayed.replay_prefix {log before : List Record} {state : Replayed}
    (hle : before <+: log) (hreplay : Replayed.replay {} log = .ok state) :
    ∃ middle, Replayed.replay {} before = .ok middle := by
  obtain ⟨after, rfl⟩ := hle
  obtain ⟨middle, hmiddle, -⟩ := Replayed.replay_append.mp hreplay
  exact ⟨middle, hmiddle⟩

theorem Catalog.mem_of_editPolicies {cat next : Catalog} {queueName : GoString}
    {payload : Bytes} {edit : SubPolicy → GoMap SubPolicy → GoMap SubPolicy}
    (hedit : cat.editPolicies queueName payload edit = .ok next) :
    queueName ∈ cat ∧ ∃ policy, decodeSubPolicy payload = some policy := by
  unfold Catalog.editPolicies at hedit
  split at hedit
  · contradiction
  · rename_i policy hdecode
    split at hedit
    · contradiction
    · rename_i policies hpolicies
      exact ⟨Finmap.mem_iff.mpr ⟨policies, hpolicies⟩, policy, hdecode⟩

theorem Catalog.vouches_of_replay {state next : Replayed} {rec : Record}
    (hnext : state.replayRecord rec = .ok next)
    (hqueue : rec.opType = .enqueue → rec.queueName ∈ state.cat)
    (hkeyed : ∀ enq, rec.enqueued = some enq → KeyedByName enq.subList) :
    Catalog.Vouches state.cat rec := by
  unfold Catalog.Vouches
  unfold Replayed.replayRecord at hnext
  cases hop : rec.opType with
  | createQueue => exact ⟨.create rec.queueName, by simp [Record.effect, hop], trivial⟩
  | deleteQueue => exact ⟨.delete rec.queueName, by simp [Record.effect, hop], trivial⟩
  | beginCheckpoint => exact ⟨.nothing, by simp [Record.effect, hop], trivial⟩
  | endCheckpoint => exact ⟨.nothing, by simp [Record.effect, hop], trivial⟩
  | other code hcode => simp [hop, Catalog.processRecord] at hnext
  | updateSubPolicy =>
      simp only [hop, Catalog.processRecord, Catalog.updateSubPolicy] at hnext
      split at hnext
      · contradiction
      · rename_i cat hedit
        obtain ⟨hmem, policy, hdecode⟩ := Catalog.mem_of_editPolicies hedit
        exact ⟨.subscribe rec.queueName policy, by simp [Record.effect, hop, hdecode], hmem⟩
  | deleteSubPolicy =>
      simp only [hop, Catalog.processRecord, Catalog.removeSubPolicy] at hnext
      split at hnext
      · contradiction
      · rename_i cat hedit
        obtain ⟨hmem, policy, hdecode⟩ := Catalog.mem_of_editPolicies hedit
        exact ⟨.unsubscribe rec.queueName policy.subName,
          by simp [Record.effect, hop, hdecode], hmem⟩
  | enqueue =>
      simp only [hop, Delivery.processEnqueue, ne_eq, not_true_eq_false, if_false] at hnext
      cases hdecode : decodeEnqueue rec.payload with
      | none => simp [hdecode] at hnext
      | some enq =>
          exact ⟨.accept rec.queueName enq.msgId enq.msgContent enq.subList,
            by simp [Record.effect, hop, hdecode], hqueue hop,
            hkeyed enq (by simp [Record.enqueued, hop, hdecode])⟩
  | ack =>
      simp only [hop, Delivery.processAck, ne_eq, not_true_eq_false, if_false] at hnext
      cases hdecode : decodeAck rec.payload with
      | none => simp [hdecode] at hnext
      | some ack =>
          exact ⟨.settle rec.queueName ack.msgId ack.subName,
            by simp [Record.effect, hop, hdecode], trivial⟩

theorem Wellformed.genuine {log : List Record} {state : Replayed}
    (hwell : Wellformed log) (hreplay : Replayed.replay {} log = .ok state) :
    Genuine log := by
  intro before rec hat hadmits
  obtain ⟨next, hnext⟩ := Replayed.replay_prefix hat hreplay
  obtain ⟨middle, hmiddle, hrec⟩ := Replayed.replay_concat hnext
  obtain ⟨final, hfinal, hreflects⟩ := Replayed.reflects_empty.replay hadmits
  rw [hmiddle] at hfinal
  cases hfinal
  rw [← hreflects.catalog]
  refine Catalog.vouches_of_replay hrec (fun hop => ?_) (hwell.keyed rec ?_)
  · exact hwell.queues before rec middle hat hop hmiddle
  · exact hat.subset (by simp)

/-- Compaction of any front of a log changes nothing that its replay, and the replay of
whatever follows, brings back to life. -/
theorem compaction_replaces_front {front rest : List Record} {full : Replayed}
    (hwell : Wellformed (front ++ rest))
    (hreplay : Replayed.replay {} (front ++ rest) = .ok full) (order : CompactionOrder) :
    ∃ compacted, Replayed.replay {} (compactRecords order front ++ rest) = .ok compacted ∧
      compacted.cat = full.cat ∧
      ∀ queueName msgId,
        (compacted.message queueName msgId).filter Message.hasUnackedSubs =
          (full.message queueName msgId).filter Message.hasUnackedSubs := by
  have hadmits := admitsAll_of_replay (hwell.genuine hreplay) hwell.disciplined hreplay
  obtain ⟨hfront, hrest⟩ := Ledger.admitsAll_append.mp hadmits
  obtain ⟨hcompacted, hsame⟩ := compactRecords_keeps hfront order
  have hboth : ({} : Ledger).AdmitsAll (compactRecords order front ++ rest) := by
    rw [Ledger.admitsAll_append, hsame]
    exact ⟨hcompacted, hrest⟩
  obtain ⟨compacted, hreplayed, hleft⟩ := Replayed.reflects_empty.replay hboth
  obtain ⟨other, hother, hright⟩ := Replayed.reflects_empty.replay hadmits
  rw [hreplay] at hother
  cases hother
  rw [Ledger.followAll_append, hsame, ← Ledger.followAll_append] at hleft
  exact ⟨compacted, hreplayed, hleft.catalog.trans hright.catalog.symm,
    hleft.message_eq hright⟩

/-- A queue with two subscribers, one of which has acked the only message. -/
def ackedFront : List Record :=
  let policy (name : GoString) : SubPolicy := { SubPolicy.zero with subName := name }
  let subList := ((∅ : GoMap SubPolicy).insert (lit "a") (policy (lit "a"))).insert
    (lit "b") (policy (lit "b"))
  [⟨1, .createQueue, lit "q", []⟩,
    ⟨2, .updateSubPolicy, lit "q", encodeSubPolicy (policy (lit "a"))⟩,
    ⟨3, .enqueue, lit "q", encodeEnqueue ⟨lit "m", lit "hi", subList⟩⟩,
    ⟨4, .ack, lit "q", encodeAck ⟨lit "m", lit "a"⟩⟩]

theorem compaction_replaces_acked_front :
    ∃ full, Replayed.replay {} (ackedFront ++ [⟨5, .beginCheckpoint, [], []⟩]) = .ok full ∧
      ∀ order, ∃ compacted,
        Replayed.replay {} (compactRecords order ackedFront ++
          [⟨5, .beginCheckpoint, [], []⟩]) = .ok compacted ∧
        compacted.cat = full.cat ∧
        ∀ queueName msgId,
          (compacted.message queueName msgId).filter Message.hasUnackedSubs =
            (full.message queueName msgId).filter Message.hasUnackedSubs := by
  have hwell : Wellformed (ackedFront ++ [⟨5, .beginCheckpoint, [], []⟩]) := by
    decide +kernel
  have hreplays : (Replayed.replay {}
      (ackedFront ++ [⟨5, .beginCheckpoint, [], []⟩])).toOption.isSome = true := by
    decide +kernel
  cases hreplay : Replayed.replay {} (ackedFront ++ [⟨5, .beginCheckpoint, [], []⟩]) with
  | error err =>
      rw [hreplay] at hreplays
      contradiction
  | ok full => exact ⟨full, rfl, compaction_replaces_front hwell hreplay⟩

end SimonMQ.Durable
