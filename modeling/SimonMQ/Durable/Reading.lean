import SimonMQ.Durable.Stranding

namespace SimonMQ.Durable

open SimonMQ.Go

/-! What the ledger has about a message, read off the records of the log. -/

theorem acked_iff_effect {rec : Record} {msgId subName : GoString} :
    rec.acked = some ⟨msgId, subName⟩ ↔
      rec.effect = some (.settle rec.queueName msgId subName) := by
  constructor
  · intro hacked
    unfold Record.acked at hacked
    split_ifs at hacked with hop
    simp [Record.effect, hop, hacked]
  · intro heffect
    obtain ⟨hop, -, hdecode⟩ := acked_of_effect heffect
    simp [Record.acked, hop, hdecode]

theorem mem_enqueuedIds_of_pending {log : List Record} {msgId : GoString} {msg : Pending}
    (hpending : (({} : Ledger).followAll log).pending.lookup msgId = some msg) :
    msgId ∈ enqueuedIds log := by
  induction log using List.reverseRecOn generalizing msg with
  | nil => simp at hpending
  | append_singleton log rec ih =>
      cases heffect : rec.effect with
      | none =>
          rw [Ledger.followAll_append, Ledger.followAll_cons, Ledger.followAll_nil,
            Ledger.follow, heffect] at hpending
          rw [enqueuedIds, List.filterMap_append]
          exact List.mem_append_left _ (ih hpending)
      | some effect =>
          rw [Ledger.followAll_concat _ _ heffect] at hpending
          rw [enqueuedIds_concat log heffect]
          rcases Ledger.pending_of_apply hpending with
            ⟨old, hold, -⟩ | ⟨queue, content, rfl⟩
          · exact List.mem_append_left _ (ih hold)
          · exact List.mem_append_right _ List.mem_cons_self

theorem mem_enqueuedIds_of_acked {log : List Record} (hadmits : ({} : Ledger).AdmitsAll log)
    {rec : Record} (hrec : rec ∈ log) {msgId subName : GoString}
    (hacked : rec.acked = some ⟨msgId, subName⟩) : msgId ∈ enqueuedIds log := by
  obtain ⟨before, after, rfl⟩ := List.append_of_mem hrec
  obtain ⟨-, ⟨effect, heffect, hadmitted⟩, -⟩ := Ledger.admitsAll_append.mp hadmits
  rw [acked_iff_effect.mp hacked] at heffect
  cases heffect
  obtain ⟨msg, hpending, -, -⟩ := hadmitted
  rw [enqueuedIds, List.filterMap_append]
  exact List.mem_append_left _ (mem_enqueuedIds_of_pending hpending)

/-- The message is the one of an `ENQUEUE` record, acked by those whose `ACK` is there,
and its queue has not been deleted since. -/
structure Pending.ReadFrom (msg : Pending) (log : List Record) (msgId : GoString) : Prop where
  enqueued : ∃ rec ∈ log, rec.queueName = msg.queue ∧
    rec.enqueued = some ⟨msgId, msg.content, msg.subList⟩
  acked : ∀ subName,
    subName ∈ msg.acked ↔ ∃ rec ∈ log, rec.acked = some ⟨msgId, subName⟩
  alive : survives msg.queue msgId log = true

namespace Pending.ReadFrom

variable {msg : Pending} {log : List Record} {msgId : GoString} {rec : Record}
  {effect : Effect}

theorem append (hread : msg.ReadFrom log msgId) (heffect : rec.effect = some effect)
    (hother : effect.message ≠ some msgId) (hstays : effect.deletes msg.queue = false) :
    msg.ReadFrom (log ++ [rec]) msgId where
  enqueued := by
    obtain ⟨found, hfound, hfacts⟩ := hread.enqueued
    exact ⟨found, List.mem_append_left _ hfound, hfacts⟩
  acked := by
    intro subName
    have hlast : rec.acked ≠ some ⟨msgId, subName⟩ := by
      intro hacked
      rw [acked_iff_effect.mp hacked, Option.some.injEq] at heffect
      subst heffect
      exact hother rfl
    simp [hread.acked subName, hlast]
  alive := by
    rw [survives_concat _ _ _ heffect, hread.alive, hstays]
    rfl

theorem accepted {queue content : GoString} {subList : GoMap SubPolicy}
    (heffect : rec.effect = some (.accept queue msgId content subList))
    (hunacked : ∀ other ∈ log, ∀ subName, other.acked ≠ some ⟨msgId, subName⟩) :
    ReadFrom ⟨queue, content, subList, ∅⟩ (log ++ [rec]) msgId where
  enqueued := ⟨rec, by simp, accepted_of_effect heffect⟩
  acked := by
    intro subName
    simp only [Finset.notMem_empty, List.mem_append, List.mem_singleton, false_iff]
    rintro ⟨other, hold | rfl, hacked⟩
    · exact hunacked other hold subName hacked
    · rw [acked_iff_effect, heffect] at hacked
      cases hacked
  alive := by
    rw [survives_concat _ _ _ heffect]
    simp [Effect.accepts, Effect.deletes]

theorem settled (hread : msg.ReadFrom log msgId) {queue subName : GoString}
    (heffect : rec.effect = some (.settle queue msgId subName)) :
    ReadFrom { msg with acked := insert subName msg.acked } (log ++ [rec]) msgId where
  enqueued := by
    obtain ⟨found, hfound, hfacts⟩ := hread.enqueued
    exact ⟨found, List.mem_append_left _ hfound, hfacts⟩
  acked := by
    intro other
    have hlast : rec.acked = some ⟨msgId, other⟩ ↔ other = subName := by
      rw [acked_iff_effect, heffect, (acked_of_effect heffect).2.1]
      simp [eq_comm]
    simp [hread.acked other, hlast, or_comm]
  alive := by
    rw [survives_concat _ _ _ heffect, hread.alive]
    rfl

end Pending.ReadFrom

theorem Ledger.readFrom {log : List Record} (hids : (enqueuedIds log).Nodup)
    (hadmits : ({} : Ledger).AdmitsAll log) {msgId : GoString} {msg : Pending}
    (hpending : (({} : Ledger).followAll log).pending.lookup msgId = some msg) :
    msg.ReadFrom log msgId := by
  induction log using List.reverseRecOn generalizing msg with
  | nil => simp at hpending
  | append_singleton log rec ih =>
      obtain ⟨hbefore, ⟨effect, heffect, hrec⟩, -⟩ := Ledger.admitsAll_append.mp hadmits
      rw [enqueuedIds_concat log heffect, List.nodup_append] at hids
      rw [Ledger.followAll_concat _ _ heffect] at hpending
      by_cases hmessage : effect.message = some msgId
      · cases effect with
        | accept queue id content subList =>
            cases hmessage
            have hunacked :
                ∀ other ∈ log, ∀ subName, other.acked ≠ some ⟨msgId, subName⟩ := by
              intro other hother subName hacked
              have hused := mem_enqueuedIds_of_acked hbefore hother hacked
              exact hids.2.2 msgId hused msgId List.mem_cons_self rfl
            rw [Ledger.apply] at hpending
            split_ifs at hpending
            · rw [hrec.2.1] at hpending
              contradiction
            · have hlookup := (GoMap.lookup_insert_eq _ _ _ _).symm.trans hpending
              rw [if_pos rfl] at hlookup
              cases hlookup
              exact .accepted heffect hunacked
        | settle queue id subName =>
            cases hmessage
            rw [Ledger.apply, Ledger.lookup_settle_self, Option.bind_eq_some_iff] at hpending
            obtain ⟨old, hold, hafter⟩ := hpending
            split_ifs at hafter
            cases hafter
            exact (ih hids.1 hbefore hold).settled heffect
        | create _ | delete _ | subscribe _ _ | unsubscribe _ _ | nothing => contradiction
      · rw [Ledger.lookup_apply_other hmessage, Option.filter_eq_some_iff,
          Bool.not_eq_true'] at hpending
        exact (ih hids.1 hbefore hpending.1).append heffect hmessage hpending.2

theorem outstanding_iff_pending {log : List Record} (hids : (enqueuedIds log).Nodup)
    (hadmits : ({} : Ledger).AdmitsAll log) {queue msgId : GoString} :
    Outstanding log queue msgId ↔ ∃ msg,
      (({} : Ledger).followAll log).pending.lookup msgId = some msg ∧ msg.queue = queue := by
  constructor
  · rintro ⟨halive, rec, hrec, enq, henq, rfl, rfl, subName, hsub, hunacked⟩
    obtain ⟨msg, hpending, hqueue, -, -⟩ :=
      waits_of_unacked hids hrec henq hsub hunacked halive
    exact ⟨msg, hpending, hqueue⟩
  · rintro ⟨msg, hpending, rfl⟩
    have hread := Ledger.readFrom hids hadmits hpending
    obtain ⟨rec, hrec, hqueue, henq⟩ := hread.enqueued
    have hwaits := (Ledger.sound_empty.followAll hadmits).waiting msgId msg hpending
    obtain ⟨subName, hsub, hunacked⟩ := Finset.not_subset.mp hwaits
    refine ⟨hread.alive, rec, hrec, _, henq, hqueue, rfl, subName, hsub, ?_⟩
    intro other hother hacked
    exact hunacked ((hread.acked subName).mpr ⟨other, hother, hacked⟩)

end SimonMQ.Durable
