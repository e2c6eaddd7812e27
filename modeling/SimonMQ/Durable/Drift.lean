import SimonMQ.Durable.Discipline

namespace SimonMQ.Durable

open SimonMQ.Go

/-! Compaction of compacted records.  The five maps can be read back from the records
they are written out as, whatever order those come in. -/

def Record.Subscribes (rec : Record) (queue subName : GoString) : Prop :=
  rec.opType = .updateSubPolicy ∧ rec.queueName = queue ∧
    ∃ policy, decodeSubPolicy rec.payload = some policy ∧ policy.subName = subName

def Record.audience (rec : Record) : Finset GoString :=
  match rec.enqueued with
  | some enq => snapshotNames enq.subList
  | none => ∅

def Record.Enqueues (rec : Record) (msgId : GoString) : Prop :=
  ∃ enq, rec.enqueued = some enq ∧ enq.msgId = msgId ∧ enq.subList.len ≠ 0

namespace CompactionState

/-- What the maps have in common after any log without repeated message ids. -/
structure Coherent (s : CompactionState) : Prop where
  queues : ∀ name rec, s.createdQueues.lookup name = some rec →
    rec.opType = .createQueue ∧ rec.queueName = name
  listed : ∀ name, name ∈ s.createdSubs ↔ name ∈ s.createdQueues
  subs : ∀ queue subs, s.createdSubs.lookup queue = some subs →
    ∀ subName rec, subs.lookup subName = some rec → rec.Subscribes queue subName
  held : ∀ msgId, Option.Rel
    (fun rec left => rec.Enqueues msgId ∧ rec.queueName ∈ s.createdQueues ∧ left ≠ ∅ ∧
      left = rec.audience \ (s.acksOf msgId).keys)
    (s.inFlightMessages.lookup msgId) (s.remainingSubs.lookup msgId)
  stray : ∀ msgId, s.inFlightMessages.lookup msgId = none →
    s.inFlightAcks.lookup msgId = none
  acks : ∀ msgId acks, s.inFlightAcks.lookup msgId = some acks → acks ≠ ∅ ∧
    ∀ subName rec, acks.lookup subName = some rec → rec.acked = some ⟨msgId, subName⟩

theorem coherent_empty : Coherent {} where
  queues := by simp
  listed := fun name => by
    simp only [Finmap.notMem_empty]
  subs := by simp
  held := fun _ => .none
  stray := by simp
  acks := by simp

section Steps

variable {s : CompactionState} {rec : Record}

theorem Coherent.create (hs : s.Coherent) (hop : rec.opType = .createQueue) :
    (s.applyCreateQueue rec).Coherent where
  queues := by
    intro name other hother
    simp only [applyCreateQueue, GoMap.lookup_insert_eq] at hother
    split_ifs at hother with hname
    · cases hother
      exact ⟨hop, hname.symm⟩
    · exact hs.queues name other hother
  listed := by
    intro name
    simp only [applyCreateQueue, Finmap.mem_insert, hs.listed name]
  subs := by
    intro queue subs hsubs
    simp only [applyCreateQueue, GoMap.lookup_insert_eq] at hsubs
    split_ifs at hsubs
    · cases hsubs
      simp
    · exact hs.subs queue subs hsubs
  held := by
    intro msgId
    have hheld := hs.held msgId
    simp only [applyCreateQueue]
    generalize s.inFlightMessages.lookup msgId = found at hheld ⊢
    generalize s.remainingSubs.lookup msgId = left at hheld ⊢
    cases hheld with
    | none => exact .none
    | some hrel =>
        obtain ⟨henqueues, hqueue, hleft⟩ := hrel
        exact .some ⟨henqueues, Finmap.mem_insert.mpr (.inr hqueue), hleft⟩
  stray := hs.stray
  acks := hs.acks

theorem Coherent.delete (hs : s.Coherent) (rec : Record) :
    (s.applyDeleteQueue rec).Coherent where
  queues := by
    intro name other hother
    simp only [applyDeleteQueue, GoMap.lookup_erase_eq] at hother
    split_ifs at hother
    exact hs.queues name other hother
  listed := by
    intro name
    simp only [applyDeleteQueue, Finmap.mem_erase, hs.listed name]
  subs := by
    intro queue subs hsubs
    simp only [applyDeleteQueue, GoMap.lookup_erase_eq] at hsubs
    split_ifs at hsubs
    exact hs.subs queue subs hsubs
  held := by
    intro msgId
    have hheld := hs.held msgId
    simp only [applyDeleteQueue, acksOf, GoMap.lookup_retain_key]
    split_ifs with houtlives
    · simp only [CompactionState.outlives] at houtlives
      generalize hfound : s.inFlightMessages.lookup msgId = found at hheld houtlives ⊢
      generalize s.remainingSubs.lookup msgId = left at hheld ⊢
      cases hheld with
      | none => exact .none
      | some hrel =>
          obtain ⟨henqueues, hqueue, hleft⟩ := hrel
          simp only [ne_eq, decide_not, Bool.not_eq_true',
            decide_eq_false_iff_not] at houtlives
          exact .some ⟨henqueues, Finmap.mem_erase.mpr ⟨houtlives, hqueue⟩, hleft⟩
    · exact .none
  stray := by
    intro msgId
    simp only [applyDeleteQueue, GoMap.lookup_retain_key]
    split_ifs
    · exact hs.stray msgId
    · exact fun _ => rfl
  acks := by
    intro msgId acks hacks
    simp only [applyDeleteQueue, GoMap.lookup_retain_key] at hacks
    split_ifs at hacks
    exact hs.acks msgId acks hacks

theorem Coherent.editSubs (hs : s.Coherent)
    (edit : GoString → GoMap Record → GoMap Record)
    (hedit : ∀ policy subs, decodeSubPolicy rec.payload = some policy →
      s.createdSubs.lookup rec.queueName = some subs → ∀ subName other,
      (edit policy.subName subs).lookup subName = some other →
        other.Subscribes rec.queueName subName) : (s.editSubs rec edit).Coherent := by
  unfold CompactionState.editSubs
  split
  · rename_i policy subs hdecode hsubs
    refine { hs with listed := ?_, subs := ?_ }
    · intro name
      dsimp only
      rw [Finmap.mem_insert, hs.listed name]
      refine ⟨fun hname => hname.elim (fun hsame => ?_) id, .inr⟩
      rw [hsame, ← hs.listed]
      exact Finmap.mem_of_lookup_eq_some hsubs
    · intro queue others hothers
      simp only [GoMap.lookup_insert_eq] at hothers
      split_ifs at hothers with hqueue
      · cases hothers
        rw [hqueue]
        exact hedit policy subs hdecode hsubs
      · exact hs.subs queue others hothers
  · exact hs

theorem Coherent.update (hs : s.Coherent) (hop : rec.opType = .updateSubPolicy) :
    (s.applyUpdateSubPolicy rec).Coherent := by
  apply hs.editSubs
  intro policy subs hdecode hsubs subName other hother
  rw [GoMap.lookup_insert_eq] at hother
  split_ifs at hother with hname
  · cases hother
    exact ⟨hop, rfl, policy, hdecode, hname.symm⟩
  · exact hs.subs _ subs hsubs subName other hother

theorem Coherent.unsubscribe (hs : s.Coherent) (rec : Record) :
    (s.applyDeleteSubPolicy rec).Coherent := by
  apply hs.editSubs
  intro policy subs hdecode hsubs subName other hother
  rw [GoMap.lookup_erase_eq] at hother
  split_ifs at hother
  exact hs.subs _ subs hsubs subName other hother

theorem nonempty_of_len {subList : GoMap SubPolicy} (hlen : subList.len ≠ 0) :
    snapshotNames subList ≠ ∅ := by
  obtain ⟨key, hkey⟩ := Finset.card_ne_zero.mp hlen
  obtain ⟨policy, hpolicy⟩ := Finmap.mem_iff.mp (Finmap.mem_keys.mp hkey)
  exact Finset.ne_empty_of_mem (mem_snapshotNames.mpr ⟨key, policy, hpolicy, rfl⟩)

theorem Coherent.enqueue (hs : s.Coherent) (hop : rec.opType = .enqueue)
    (hfresh : ∀ enq, rec.enqueued = some enq →
      s.inFlightMessages.lookup enq.msgId = none) : (s.applyEnqueue rec).Coherent := by
  unfold applyEnqueue
  split
  · rename_i found enq hqueue hdecode
    have henqueued : rec.enqueued = some enq := by simp [Record.enqueued, hop, hdecode]
    have hnone := hfresh enq henqueued
    split_ifs with hlen
    · exact hs
    · refine { hs with held := ?_, stray := ?_ }
      · intro msgId
        simp only [GoMap.lookup_insert_eq]
        split_ifs with hid
        · subst hid
          have hacks : s.acksOf enq.msgId = ∅ := by
            rw [acksOf, hs.stray enq.msgId hnone]
            rfl
          have haudience : rec.audience = snapshotNames enq.subList := by
            simp [Record.audience, henqueued]
          refine .some ⟨⟨enq, henqueued, rfl, hlen⟩,
            Finmap.mem_of_lookup_eq_some hqueue, nonempty_of_len hlen, ?_⟩
          have hsame : CompactionState.acksOf { s with
              inFlightMessages := s.inFlightMessages.insert enq.msgId rec
              remainingSubs := s.remainingSubs.insert enq.msgId (snapshotNames enq.subList) }
              enq.msgId = ∅ := hacks
          rw [hsame, haudience, Finmap.keys_empty, Finset.sdiff_empty]
        · exact hs.held msgId
      · intro msgId
        simp only [GoMap.lookup_insert_eq]
        split_ifs
        · simp
        · exact hs.stray msgId
  · exact hs

theorem Coherent.settle (hs : s.Coherent) (msgId : GoString) :
    Coherent { s with
      remainingSubs := s.remainingSubs.erase msgId
      inFlightMessages := s.inFlightMessages.erase msgId
      inFlightAcks := s.inFlightAcks.erase msgId } := by
  refine { hs with held := ?_, stray := ?_, acks := ?_ }
  · intro other
    have hheld := hs.held other
    simp only [acksOf, GoMap.lookup_erase_eq] at hheld ⊢
    split_ifs
    · exact .none
    · exact hheld
  · intro other
    simp only [GoMap.lookup_erase_eq]
    split_ifs
    · exact fun _ => rfl
    · exact hs.stray other
  · intro other acks hacks
    simp only [GoMap.lookup_erase_eq] at hacks
    split_ifs at hacks
    exact hs.acks other acks hacks

theorem Coherent.note (hs : s.Coherent) {ack : Ack} (hacked : rec.acked = some ack)
    {left : Finset GoString} (hleft : s.remainingSubs.lookup ack.msgId = some left)
    (hmore : left.erase ack.subName ≠ ∅) :
    Coherent { s with
      remainingSubs := s.remainingSubs.insert ack.msgId (left.erase ack.subName)
      inFlightAcks := s.inFlightAcks.insert ack.msgId
        ((s.acksOf ack.msgId).insert ack.subName rec) } := by
  refine { hs with held := ?_, stray := ?_, acks := ?_ }
  · intro msgId
    have hheld := hs.held msgId
    simp only [acksOf, GoMap.lookup_insert_eq] at hheld ⊢
    split_ifs with hid
    · subst hid
      rw [hleft] at hheld
      generalize s.inFlightMessages.lookup ack.msgId = found at hheld ⊢
      cases hheld with
      | some hrel =>
          obtain ⟨henqueues, hqueue, -, rfl⟩ := hrel
          refine .some ⟨henqueues, hqueue, hmore, ?_⟩
          rw [Option.getD_some, GoMap.keys_insert, Finset.sdiff_insert]
    · exact hheld
  · intro msgId hnone
    have hheld := hs.held msgId
    simp only [GoMap.lookup_insert_eq] at hnone ⊢
    split_ifs with hid
    · subst hid
      rw [hleft, hnone] at hheld
      cases hheld
    · exact hs.stray msgId hnone
  · intro msgId acks hacks
    simp only [GoMap.lookup_insert_eq] at hacks
    split_ifs at hacks with hid
    · cases hacks
      subst hid
      refine ⟨?_, ?_⟩
      · intro hempty
        have hlookup := congrArg (Finmap.lookup ack.subName) hempty
        simp at hlookup
      · intro subName other hother
        rw [GoMap.lookup_insert_eq] at hother
        split_ifs at hother with hname
        · cases hother
          rw [hacked, hname]
        · cases hfound : s.inFlightAcks.lookup ack.msgId with
          | none =>
              rw [acksOf, hfound] at hother
              simp at hother
          | some acks =>
              rw [acksOf, hfound] at hother
              exact (hs.acks ack.msgId acks hfound).2 subName other hother
    · exact hs.acks msgId acks hacks

theorem Coherent.ack (hs : s.Coherent) (hop : rec.opType = .ack) :
    (s.applyAck rec).Coherent := by
  unfold applyAck
  split
  · exact hs
  · rename_i ack hdecode
    have hacked : rec.acked = some ack := by simp [Record.acked, hop, hdecode]
    dsimp only
    split
    · rename_i left hleft
      split_ifs with hnobody
      · exact hs.settle ack.msgId
      · exact hs.note hacked hleft fun hempty => hnobody (by rw [hempty]; rfl)
    · rename_i hnone
      have hsettled := hs.settle ack.msgId
      rwa [GoMap.erase_of_lookup_none hnone] at hsettled

theorem Coherent.apply (hs : s.Coherent)
    (hfresh : ∀ enq, rec.enqueued = some enq →
      s.inFlightMessages.lookup enq.msgId = none) : (s.apply rec).Coherent := by
  unfold CompactionState.apply
  split
  · rename_i hop
    exact hs.enqueue hop hfresh
  · rename_i hop
    exact hs.ack hop
  · rename_i hop
    exact hs.create hop
  · exact hs.delete rec
  · rename_i hop
    exact hs.update hop
  · exact hs.unsubscribe rec
  · exact hs

end Steps

theorem inFlight_apply {s : CompactionState} {rec other : Record} {msgId : GoString}
    (hother : (s.apply rec).inFlightMessages.lookup msgId = some other) :
    s.inFlightMessages.lookup msgId = some other ∨
      ∃ enq, rec.enqueued = some enq ∧ enq.msgId = msgId := by
  unfold CompactionState.apply at hother
  split at hother
  · rename_i hop
    unfold applyEnqueue at hother
    split at hother
    · rename_i found enq hqueue hdecode
      split_ifs at hother
      · exact .inl hother
      · rw [GoMap.lookup_insert_eq] at hother
        split_ifs at hother with hid
        · exact .inr ⟨enq, by simp [Record.enqueued, hop, hdecode], hid.symm⟩
        · exact .inl hother
    · exact .inl hother
  · left
    unfold applyAck at hother
    split at hother
    · exact hother
    · dsimp only at hother
      split at hother
      · split_ifs at hother
        · rw [GoMap.lookup_erase_eq] at hother
          split_ifs at hother
          exact hother
        · exact hother
      · rw [GoMap.lookup_erase_eq] at hother
        split_ifs at hother
        exact hother
  · exact .inl hother
  · left
    simp only [applyDeleteQueue, GoMap.lookup_retain_key] at hother
    split_ifs at hother
    exact hother
  · left
    unfold applyUpdateSubPolicy CompactionState.editSubs at hother
    split at hother <;> exact hother
  · left
    unfold applyDeleteSubPolicy CompactionState.editSubs at hother
    split at hother <;> exact hother
  · exact .inl hother

theorem coherent_of_records {records : List Record} (hids : (enqueuedIds records).Nodup) :
    (records.foldl CompactionState.apply {}).Coherent ∧
      ∀ msgId rec,
        (records.foldl CompactionState.apply {}).inFlightMessages.lookup msgId = some rec →
          msgId ∈ enqueuedIds records := by
  induction records using List.reverseRecOn with
  | nil => exact ⟨coherent_empty, by simp⟩
  | append_singleton records rec ih =>
      have hsplit : enqueuedIds (records ++ [rec]) =
          enqueuedIds records ++ (rec.enqueued.map Enqueue.msgId).toList := by
        rw [enqueuedIds, List.filterMap_append, enqueuedIds]
        cases henqueued : rec.enqueued <;> simp [henqueued]
      rw [hsplit, List.nodup_append] at hids
      obtain ⟨hcoherent, hknown⟩ := ih hids.1
      rw [List.foldl_append, List.foldl_cons, List.foldl_nil, hsplit]
      refine ⟨hcoherent.apply fun enq henq => ?_, fun msgId other hother => ?_⟩
      · cases hlookup : (records.foldl CompactionState.apply {}).inFlightMessages.lookup
            enq.msgId with
        | none => rfl
        | some other =>
            have hmem : enq.msgId ∈ (rec.enqueued.map Enqueue.msgId).toList := by
              simp [henq]
            exact absurd rfl (hids.2.2 _ (hknown _ _ hlookup) _ hmem)
      · rw [List.mem_append]
        rcases inFlight_apply hother with hold | ⟨enq, henq, rfl⟩
        · exact .inl (hknown msgId other hold)
        · exact .inr (by simp [henq])

/-! Reading the maps back, one lemma for each kind of record. -/

theorem foldl_creates {entries : List (GoString × Record)}
    (hentries : ∀ entry ∈ entries,
      entry.2.opType = .createQueue ∧ entry.2.queueName = entry.1) (s : CompactionState) :
    (entries.map Prod.snd).foldl CompactionState.apply s =
      { s with
        createdQueues := GoMap.ofList entries s.createdQueues
        createdSubs := GoMap.ofList (entries.map fun entry => (entry.1, ∅))
          s.createdSubs } := by
  induction entries generalizing s with
  | nil => rfl
  | cons entry entries ih =>
      obtain ⟨hop, hname⟩ := hentries entry List.mem_cons_self
      rw [List.map_cons, List.foldl_cons,
        ih fun other hmem => hentries other (List.mem_cons_of_mem _ hmem)]
      simp only [CompactionState.apply, hop, applyCreateQueue, hname, List.map_cons,
        GoMap.ofList_cons]

theorem foldl_updates {queue : GoString} {entries : List (GoString × Record)}
    (hentries : ∀ entry ∈ entries, entry.2.Subscribes queue entry.1)
    {s : CompactionState} {subs : GoMap Record}
    (hsubs : s.createdSubs.lookup queue = some subs) :
    (entries.map Prod.snd).foldl CompactionState.apply s =
      { s with
        createdSubs := s.createdSubs.insert queue (GoMap.ofList entries subs) } := by
  induction entries generalizing s subs with
  | nil => simp only [List.map_nil, List.foldl_nil, GoMap.ofList_nil,
      GoMap.insert_of_lookup hsubs]
  | cons entry entries ih =>
      obtain ⟨hop, rfl, policy, hdecode, hname⟩ := hentries entry List.mem_cons_self
      have happly : s.apply entry.2 =
          { s with
            createdSubs := s.createdSubs.insert entry.2.queueName
              (subs.insert entry.1 entry.2) } := by
        simp only [CompactionState.apply, hop, applyUpdateSubPolicy,
          CompactionState.editSubs, hdecode, hsubs, hname]
      rw [List.map_cons, List.foldl_cons, happly,
        ih (fun other hmem => hentries other (List.mem_cons_of_mem _ hmem))
          (Finmap.lookup_insert _), GoMap.ofList_cons]
      simp only [Finmap.insert_insert]

theorem foldl_allUpdates {order : GoMap.Order Record}
    {entries : List (GoString × GoMap Record)} (hnodup : (entries.map Prod.fst).Nodup)
    (hentries : ∀ entry ∈ entries, ∀ subName rec, entry.2.lookup subName = some rec →
      rec.Subscribes entry.1 subName)
    {s : CompactionState} (hsubs : ∀ entry ∈ entries, s.createdSubs.lookup entry.1 = some ∅) :
    (entries.flatMap fun entry => (order.walk entry.2).map Prod.snd).foldl
        CompactionState.apply s =
      { s with createdSubs := GoMap.ofList entries s.createdSubs } := by
  induction entries generalizing s with
  | nil => rfl
  | cons entry entries ih =>
      rw [List.map_cons, List.nodup_cons] at hnodup
      have henum := order.enumerates entry.2
      rw [List.flatMap_cons, List.foldl_append,
        foldl_updates (fun found hmem => hentries entry List.mem_cons_self _ _
          (henum.lookup_of_mem hmem)) (hsubs entry List.mem_cons_self),
        GoMap.ofList_of_enumerates henum,
        ih hnodup.2 (fun other hmem => hentries other (List.mem_cons_of_mem _ hmem)),
        GoMap.ofList_cons]
      intro other hmem
      rw [GoMap.lookup_insert_eq, if_neg, hsubs other (List.mem_cons_of_mem _ hmem)]
      rintro hsame
      exact hnodup.1 (hsame ▸ List.mem_map_of_mem (f := Prod.fst) hmem)

theorem foldl_enqueues {entries : List (GoString × Record)} {s : CompactionState}
    (hentries : ∀ entry ∈ entries, entry.2.Enqueues entry.1 ∧
      entry.2.queueName ∈ s.createdQueues) :
    (entries.map Prod.snd).foldl CompactionState.apply s =
      { s with
        inFlightMessages := GoMap.ofList entries s.inFlightMessages
        remainingSubs := GoMap.ofList (entries.map fun entry => (entry.1, entry.2.audience))
          s.remainingSubs } := by
  induction entries generalizing s with
  | nil => rfl
  | cons entry entries ih =>
      obtain ⟨⟨enq, henqueued, hid, hlen⟩, hqueue⟩ := hentries entry List.mem_cons_self
      obtain ⟨found, hfound⟩ := Finmap.mem_iff.mp hqueue
      have haudience : entry.2.audience = snapshotNames enq.subList := by
        simp [Record.audience, henqueued]
      unfold Record.enqueued at henqueued
      split_ifs at henqueued with hop
      have happly : s.apply entry.2 =
          { s with
            inFlightMessages := s.inFlightMessages.insert entry.1 entry.2
            remainingSubs := s.remainingSubs.insert entry.1 entry.2.audience } := by
        simp only [CompactionState.apply, hop, applyEnqueue, hfound, henqueued, hlen,
          if_false, hid, haudience]
      rw [List.map_cons, List.foldl_cons, happly, ih]
      · simp only [GoMap.ofList_cons, List.map_cons]
      · exact fun other hmem => hentries other (List.mem_cons_of_mem _ hmem)

theorem foldl_acks {msgId : GoString} {entries : List (GoString × Record)}
    (hentries : ∀ entry ∈ entries, entry.2.acked = some ⟨msgId, entry.1⟩)
    (hsome : entries ≠ []) {s : CompactionState} {left : Finset GoString}
    (hleft : s.remainingSubs.lookup msgId = some left)
    (hmore : left \ (entries.map Prod.fst).toFinset ≠ ∅) :
    (entries.map Prod.snd).foldl CompactionState.apply s =
      { s with
        remainingSubs := s.remainingSubs.insert msgId
          (left \ (entries.map Prod.fst).toFinset)
        inFlightAcks := s.inFlightAcks.insert msgId
          (GoMap.ofList entries (s.acksOf msgId)) } := by
  induction entries generalizing s left with
  | nil => contradiction
  | cons entry entries ih =>
      have hacked := hentries entry List.mem_cons_self
      unfold Record.acked at hacked
      split_ifs at hacked with hop
      have hsplit : left \ ((entry :: entries).map Prod.fst).toFinset =
          left.erase entry.1 \ (entries.map Prod.fst).toFinset := by
        rw [List.map_cons, List.toFinset_cons, Finset.sdiff_insert,
          Finset.erase_sdiff_comm]
      have hothers : left.erase entry.1 ≠ ∅ := by
        intro hempty
        rw [hsplit, hempty, Finset.empty_sdiff] at hmore
        exact hmore rfl
      have happly : s.apply entry.2 =
          { s with
            remainingSubs := s.remainingSubs.insert msgId (left.erase entry.1)
            inFlightAcks := s.inFlightAcks.insert msgId
              ((s.acksOf msgId).insert entry.1 entry.2) } := by
        simp only [CompactionState.apply, hop, applyAck, hacked, hleft, Finset.card_eq_zero,
          hothers, if_false]
      rw [List.map_cons, List.foldl_cons, happly]
      by_cases hlast : entries = []
      · subst hlast
        rw [hsplit]
        simp
      · rw [ih (fun other hmem => hentries other (List.mem_cons_of_mem _ hmem)) hlast
          (Finmap.lookup_insert _) (by rwa [← hsplit]), hsplit]
        simp only [acksOf, Finmap.insert_insert, Finmap.lookup_insert, Option.getD_some,
          GoMap.ofList_cons]

theorem toFinset_keys_of_enumerates {V : Type} {entries : List (GoString × V)} {m : GoMap V}
    (henum : GoMap.Enumerates entries m) : (entries.map Prod.fst).toFinset = m.keys := by
  ext key
  rw [List.mem_toFinset, Finmap.mem_keys, Finmap.mem_iff, List.mem_map]
  constructor
  · rintro ⟨entry, hmem, rfl⟩
    exact ⟨entry.2, henum.lookup_of_mem hmem⟩
  · rintro ⟨value, hvalue⟩
    exact ⟨(key, value), (henum.2 key value).mpr hvalue, rfl⟩

theorem foldl_allAcks {order : GoMap.Order Record} (lefts : GoString → Finset GoString)
    {entries : List (GoString × GoMap Record)} (hnodup : (entries.map Prod.fst).Nodup)
    (hentries : ∀ entry ∈ entries, entry.2 ≠ ∅ ∧
      (∀ subName rec, entry.2.lookup subName = some rec →
        rec.acked = some ⟨entry.1, subName⟩) ∧ lefts entry.1 \ entry.2.keys ≠ ∅)
    {s : CompactionState}
    (hlefts : ∀ entry ∈ entries, s.remainingSubs.lookup entry.1 = some (lefts entry.1) ∧
      s.inFlightAcks.lookup entry.1 = none) :
    (entries.flatMap fun entry => (order.walk entry.2).map Prod.snd).foldl
        CompactionState.apply s =
      { s with
        remainingSubs := GoMap.ofList
          (entries.map fun entry => (entry.1, lefts entry.1 \ entry.2.keys)) s.remainingSubs
        inFlightAcks := GoMap.ofList entries s.inFlightAcks } := by
  induction entries generalizing s with
  | nil => rfl
  | cons entry entries ih =>
      rw [List.map_cons, List.nodup_cons] at hnodup
      have henum := order.enumerates entry.2
      obtain ⟨hsome, hacked, hmore⟩ := hentries entry List.mem_cons_self
      obtain ⟨hleft, hnone⟩ := hlefts entry List.mem_cons_self
      have hwalk : order.walk entry.2 ≠ [] := by
        intro hnil
        apply hsome
        rw [← GoMap.ofList_of_enumerates henum, hnil]
        rfl
      have hother : ∀ other ∈ entries, other.1 ≠ entry.1 := by
        intro other hmem hsame
        exact hnodup.1 (hsame ▸ List.mem_map_of_mem (f := Prod.fst) hmem)
      have hacks : s.acksOf entry.1 = ∅ := by
        rw [acksOf, hnone]
        rfl
      rw [List.flatMap_cons, List.foldl_append,
        foldl_acks (fun found hmem => hacked _ _ (henum.lookup_of_mem hmem)) hwalk hleft
          (by rwa [toFinset_keys_of_enumerates henum]),
        toFinset_keys_of_enumerates henum, hacks, GoMap.ofList_of_enumerates henum, ih]
      · simp only [GoMap.ofList_cons, List.map_cons]
      · exact hnodup.2
      · exact fun other hmem => hentries other (List.mem_cons_of_mem _ hmem)
      · intro other hmem
        simp only [GoMap.lookup_insert_eq, if_neg (hother other hmem)]
        exact hlefts other (List.mem_cons_of_mem _ hmem)

def audienceOf (s : CompactionState) (msgId : GoString) : Finset GoString :=
  ((s.inFlightMessages.lookup msgId).map Record.audience).getD ∅

theorem Coherent.left_of_acks {s : CompactionState} (hs : s.Coherent) {msgId : GoString}
    {acks : GoMap Record} (hacks : s.inFlightAcks.lookup msgId = some acks) :
    (∃ rec, s.inFlightMessages.lookup msgId = some rec) ∧
      s.remainingSubs.lookup msgId = some (s.audienceOf msgId \ acks.keys) ∧
      s.audienceOf msgId \ acks.keys ≠ ∅ := by
  have hheld := hs.held msgId
  rw [acksOf, hacks, Option.getD_some] at hheld
  cases hrec : s.inFlightMessages.lookup msgId with
  | none =>
      have := hs.stray msgId hrec
      rw [hacks] at this
      contradiction
  | some rec =>
      have haudience : s.audienceOf msgId = rec.audience := by simp [audienceOf, hrec]
      rw [hrec] at hheld
      rw [haudience]
      generalize s.remainingSubs.lookup msgId = left at hheld ⊢
      cases hheld with
      | some hrel =>
          obtain ⟨-, -, hmore, rfl⟩ := hrel
          exact ⟨⟨rec, rfl⟩, rfl, hmore⟩

section Recovered

variable {s : CompactionState}

theorem Coherent.ofList_subs (hs : s.Coherent) {queues : List (GoString × Record)}
    (hqueues : GoMap.Enumerates queues s.createdQueues)
    {subs : List (GoString × GoMap Record)}
    (hsubs : GoMap.Enumerates subs s.createdSubs) :
    GoMap.ofList subs
      (GoMap.ofList (queues.map fun entry => (entry.1, (∅ : GoMap Record)))) =
        s.createdSubs := by
  apply Finmap.ext_lookup
  intro name
  rw [GoMap.lookup_ofList_of_enumerates hsubs,
    GoMap.lookup_ofList_map hqueues (fun _ _ => (∅ : GoMap Record))]
  cases hvalue : s.createdSubs.lookup name with
  | some found => rfl
  | none =>
      have hnone : s.createdQueues.lookup name = none := by
        rw [Finmap.lookup_eq_none, ← hs.listed, ← Finmap.lookup_eq_none]
        exact hvalue
      rw [hnone]
      rfl

theorem Coherent.ofList_remaining (hs : s.Coherent) {messages : List (GoString × Record)}
    (hmessages : GoMap.Enumerates messages s.inFlightMessages)
    {acks : List (GoString × GoMap Record)}
    (hacks : GoMap.Enumerates acks s.inFlightAcks) :
    GoMap.ofList (acks.map fun entry => (entry.1, s.audienceOf entry.1 \ entry.2.keys))
      (GoMap.ofList (messages.map fun entry => (entry.1, entry.2.audience))) =
        s.remainingSubs := by
  apply Finmap.ext_lookup
  intro msgId
  rw [GoMap.lookup_ofList_map hacks fun msgId acks => s.audienceOf msgId \ acks.keys,
    GoMap.lookup_ofList_map hmessages fun _ rec => rec.audience]
  cases hfound : s.inFlightAcks.lookup msgId with
  | some found =>
      rw [(hs.left_of_acks hfound).2.1]
      rfl
  | none =>
      have hheld := hs.held msgId
      rw [acksOf, hfound, Option.getD_none, Finmap.keys_empty] at hheld
      generalize s.inFlightMessages.lookup msgId = message at hheld ⊢
      generalize s.remainingSubs.lookup msgId = left at hheld ⊢
      cases hheld with
      | none => rfl
      | some hrel =>
          obtain ⟨-, -, -, rfl⟩ := hrel
          rw [Finset.sdiff_empty]
          rfl

theorem Coherent.recovered (hs : s.Coherent) (order : CompactionOrder) :
    (s.compacted order).foldl CompactionState.apply {} = s := by
  have hqueues := order.queues.enumerates s.createdQueues
  have hsubs := order.queueSubs.enumerates s.createdSubs
  have hmessages := order.messages.enumerates s.inFlightMessages
  have hacks := order.messageAcks.enumerates s.inFlightAcks
  have hallQueues := GoMap.ofList_of_enumerates hqueues
  rw [compacted, List.foldl_append, List.foldl_append, List.foldl_append,
    foldl_creates fun entry hmem => hs.queues _ _ (hqueues.lookup_of_mem hmem),
    foldl_allUpdates hsubs.1 fun entry hmem => hs.subs _ _ (hsubs.lookup_of_mem hmem),
    foldl_enqueues, foldl_allAcks s.audienceOf hacks.1]
  · simp only [hallQueues, hs.ofList_subs hqueues hsubs,
      GoMap.ofList_of_enumerates hmessages, hs.ofList_remaining hmessages hacks,
      GoMap.ofList_of_enumerates hacks]
  · intro entry hmem
    have hlookup := hacks.lookup_of_mem hmem
    obtain ⟨hsome, hacked⟩ := hs.acks entry.1 entry.2 hlookup
    exact ⟨hsome, hacked, (hs.left_of_acks hlookup).2.2⟩
  · intro entry hmem
    obtain ⟨⟨rec, hrec⟩, -⟩ := hs.left_of_acks (hacks.lookup_of_mem hmem)
    dsimp only
    rw [GoMap.lookup_ofList_map hmessages fun _ rec => rec.audience]
    refine ⟨?_, rfl⟩
    rw [audienceOf, hrec]
    rfl
  · intro entry hmem
    have hheld := hs.held entry.1
    rw [hmessages.lookup_of_mem hmem] at hheld
    generalize s.remainingSubs.lookup entry.1 = left at hheld
    dsimp only
    rw [hallQueues]
    cases hheld with
    | some hrel => exact ⟨hrel.1, hrel.2.1⟩
  · intro entry hmem
    have hqueue : entry.1 ∈ s.createdQueues := by
      rw [← hs.listed]
      exact Finmap.mem_of_lookup_eq_some (hsubs.lookup_of_mem hmem)
    obtain ⟨rec, hrec⟩ := Finmap.mem_iff.mp hqueue
    dsimp only
    rw [GoMap.lookup_ofList_map hqueues fun _ _ => (∅ : GoMap Record), hrec]
    rfl

end Recovered

/-! The order of the output. -/

theorem perm_of_enumerates {V : Type} {left right : List (GoString × V)} {m : GoMap V}
    (hleft : GoMap.Enumerates left m) (hright : GoMap.Enumerates right m) :
    left.Perm right := by
  rw [List.perm_ext_iff_of_nodup hleft.1.of_map hright.1.of_map]
  intro entry
  rw [hleft.2 entry.1 entry.2, hright.2 entry.1 entry.2]

theorem compacted_perm (s : CompactionState) (first second : CompactionOrder) :
    (s.compacted first).Perm (s.compacted second) := by
  refine (((List.Perm.map _ ?_).append ?_).append (List.Perm.map _ ?_)).append ?_
  · exact perm_of_enumerates (first.queues.enumerates _) (second.queues.enumerates _)
  · refine List.Perm.flatMap (perm_of_enumerates (first.queueSubs.enumerates _)
      (second.queueSubs.enumerates _)) fun entry _ => List.Perm.map _ ?_
    exact perm_of_enumerates (first.subs.enumerates _) (second.subs.enumerates _)
  · exact perm_of_enumerates (first.messages.enumerates _) (second.messages.enumerates _)
  · refine List.Perm.flatMap (perm_of_enumerates (first.messageAcks.enumerates _)
      (second.messageAcks.enumerates _)) fun entry _ => List.Perm.map _ ?_
    exact perm_of_enumerates (first.acks.enumerates _) (second.acks.enumerates _)

end CompactionState

/-- Checkpoints of checkpoints do not drift: compacting a compacted front with what
follows it gives the records that compacting the whole log gives. -/
theorem compaction_does_not_drift {front rest : List Record}
    (hids : (enqueuedIds (front ++ rest)).Nodup)
    (first second whole : CompactionOrder) :
    (compactRecords second (compactRecords first front ++ rest)).Perm
      (compactRecords whole (front ++ rest)) := by
  have hfront : (enqueuedIds front).Nodup := by
    rw [enqueuedIds, List.filterMap_append] at hids
    exact (List.nodup_append.mp hids).1
  have hcoherent := (CompactionState.coherent_of_records hfront).1
  have hsame : (compactRecords first front ++ rest).foldl CompactionState.apply {} =
      (front ++ rest).foldl CompactionState.apply {} := by
    rw [List.foldl_append, List.foldl_append, compactRecords, hcoherent.recovered first]
  unfold compactRecords at hsame ⊢
  rw [hsame]
  exact CompactionState.compacted_perm _ second whole

/-- A message for one subscriber, beside records that nothing can be made of. -/
def strayFront : List Record :=
  let policy : SubPolicy := { SubPolicy.zero with subName := lit "a" }
  [⟨1, .createQueue, lit "q", []⟩, ⟨2, .enqueue, lit "q", lit "no json"⟩,
    ⟨3, .enqueue, lit "q",
      encodeEnqueue ⟨lit "m", lit "hi", (∅ : GoMap SubPolicy).insert (lit "a") policy⟩⟩,
    ⟨4, .ack, lit "q", encodeAck ⟨lit "m", lit "stranger"⟩⟩]

theorem stray_compaction_does_not_drift :
    (compactRecords keyOrder (compactRecords keyOrder strayFront ++
      [⟨5, .ack, lit "r", encodeAck ⟨lit "n", lit "b"⟩⟩])).Perm
      (compactRecords keyOrder (strayFront ++
        [⟨5, .ack, lit "r", encodeAck ⟨lit "n", lit "b"⟩⟩])) := by
  have hids : (enqueuedIds (strayFront ++
      [⟨5, .ack, lit "r", encodeAck ⟨lit "n", lit "b"⟩⟩])).Nodup := by
    decide +kernel
  exact compaction_does_not_drift hids keyOrder keyOrder keyOrder

end SimonMQ.Durable
