import SimonMQ.Durable.Drift

namespace SimonMQ.Durable

open SimonMQ.Go
open SimonMQ.Go.Utf8

/-! A log that grows by one coordinator call after the other, without any promise of
the workers about their acks. -/

/-- Policies that have been through the log: keyed by their names, and valid UTF-8. -/
def FromLog (policies : GoMap SubPolicy) : Prop :=
  ∀ name policy, policies.lookup name = some policy → policy.subName = name ∧ policy.Valid

theorem fromLog_empty : FromLog ∅ := by
  simp [FromLog]

namespace FromLog

variable {policies : GoMap SubPolicy}

theorem keyed (hlogged : FromLog policies) : KeyedByName policies :=
  fun name policy hpolicy => (hlogged name policy hpolicy).1

theorem valid_name (hlogged : FromLog policies) {name : GoString}
    (hname : name ∈ policies.keys) : Valid name := by
  obtain ⟨policy, hpolicy⟩ := Finmap.mem_iff.mp (Finmap.mem_keys.mp hname)
  obtain ⟨rfl, hvalid⟩ := hlogged name policy hpolicy
  exact hvalid.subName

theorem insert (hlogged : FromLog policies) (policy : SubPolicy) :
    FromLog (policies.insert policy.coerce.subName policy.coerce) := by
  intro name found hfound
  rw [GoMap.lookup_insert_eq] at hfound
  split_ifs at hfound with hname
  · cases hfound
    exact ⟨hname.symm, policy.valid_coerce⟩
  · exact hlogged name found hfound

theorem erase (hlogged : FromLog policies) (subName : GoString) :
    FromLog (policies.erase subName) := by
  intro name found hfound
  rw [GoMap.lookup_erase_eq] at hfound
  split_ifs at hfound
  exact hlogged name found hfound

theorem coerceMap_eq (hlogged : FromLog policies) :
    Json.coerceMap SubPolicy.coerce policies = policies := by
  apply Json.coerceMap_of_valid
  intro name policy hpolicy
  obtain ⟨hname, hvalid⟩ := hlogged name policy hpolicy
  exact ⟨hname ▸ hvalid.subName, SubPolicy.coerce_of_valid hvalid⟩

end FromLog

/-! The log. -/

def Effect.message : Effect → Option GoString
  | .accept _ msgId _ _ => some msgId
  | .settle _ msgId _ => some msgId
  | _ => none

def Effect.newIds : Effect → List GoString
  | .accept _ msgId _ _ => [msgId]
  | _ => []

theorem enqueuedIds_concat (log : List Record) {rec : Record} {effect : Effect}
    (heffect : rec.effect = some effect) :
    enqueuedIds (log ++ [rec]) = enqueuedIds log ++ effect.newIds := by
  rw [enqueuedIds, List.filterMap_append]
  congr 1
  rw [Record.effect] at heffect
  cases hop : rec.opType <;> simp only [hop, Option.map_eq_some_iff, Option.some.injEq] at heffect
  case enqueue =>
    obtain ⟨enq, hdecode, rfl⟩ := heffect
    simp [Record.enqueued, hop, hdecode, Effect.newIds]
  case updateSubPolicy | deleteSubPolicy | ack =>
    obtain ⟨_, _, rfl⟩ := heffect
    simp [Record.enqueued, hop, Effect.newIds]
  case other => contradiction
  all_goals
    subst heffect
    simp [Record.enqueued, hop, Effect.newIds]

def Effect.deletes (effect : Effect) (queue : GoString) : Bool :=
  match effect with
  | .delete name => name = queue
  | _ => false

def Effect.accepts (effect : Effect) (queue msgId : GoString) : Bool :=
  match effect with
  | .accept name id _ _ => name = queue && id = msgId
  | _ => false

/-- The message has been accepted into the queue, and the queue has not been deleted
since. -/
def survives (queue msgId : GoString) (log : List Record) : Bool :=
  log.foldl
    (fun alive rec =>
      match rec.effect with
      | none => alive
      | some effect => (alive || effect.accepts queue msgId) && !effect.deletes queue)
    false

theorem survives_concat (queue msgId : GoString) (log : List Record) {rec : Record}
    {effect : Effect} (heffect : rec.effect = some effect) :
    survives queue msgId (log ++ [rec]) =
      ((survives queue msgId log || effect.accepts queue msgId) &&
        !effect.deletes queue) := by
  simp only [survives, List.foldl_append, List.foldl_cons, List.foldl_nil, heffect]

theorem Effect.not_accepts_of_newIds {effect : Effect} {msgId : GoString}
    (hother : msgId ∉ effect.newIds) (queue : GoString) :
    effect.accepts queue msgId = false := by
  cases effect <;> simp_all [Effect.accepts, Effect.newIds, eq_comm]

theorem Effect.not_accepts {effect : Effect} {msgId : GoString}
    (hother : effect.message ≠ some msgId) (queue : GoString) :
    effect.accepts queue msgId = false := by
  apply not_accepts_of_newIds
  cases effect <;> simp_all [Effect.newIds, Effect.message, eq_comm]

namespace Ledger

theorem followAll_concat (ledger : Ledger) (log : List Record) {rec : Record}
    {effect : Effect} (heffect : rec.effect = some effect) :
    ledger.followAll (log ++ [rec]) = (ledger.followAll log).apply effect := by
  rw [followAll_append, followAll_cons, followAll_nil, follow_of_effect heffect]

theorem lookup_settle_other (ledger : Ledger) {msgId other : GoString} (subName : GoString)
    (hother : other ≠ msgId) :
    (ledger.settle msgId subName).pending.lookup other = ledger.pending.lookup other := by
  unfold settle
  cases ledger.pending.lookup msgId with
  | none => rfl
  | some msg =>
      dsimp only
      split_ifs
      · rw [GoMap.lookup_erase_eq, if_neg hother]
      · rw [GoMap.lookup_insert_eq, if_neg hother]

theorem lookup_settle_self (ledger : Ledger) (msgId subName : GoString) :
    (ledger.settle msgId subName).pending.lookup msgId =
      (ledger.pending.lookup msgId).bind fun msg =>
        if msg.subList.keys ⊆ insert subName msg.acked then none
        else some { msg with acked := insert subName msg.acked } := by
  unfold settle
  cases hmsg : ledger.pending.lookup msgId with
  | none => exact hmsg
  | some msg =>
      rw [Option.bind_some]
      dsimp only
      split_ifs
      · rw [GoMap.lookup_erase_eq, if_pos rfl]
      · rw [GoMap.lookup_insert_eq, if_pos rfl]

theorem lookup_apply_other {ledger : Ledger} {effect : Effect} {msgId : GoString}
    (hother : effect.message ≠ some msgId) :
    (ledger.apply effect).pending.lookup msgId =
      (ledger.pending.lookup msgId).filter fun msg => !effect.deletes msg.queue := by
  have hkept : (∀ queue, effect.deletes queue = false) →
      (ledger.pending.lookup msgId).filter (fun msg => !effect.deletes msg.queue) =
        ledger.pending.lookup msgId := by
    intro hno
    cases ledger.pending.lookup msgId <;> simp [Option.filter, hno]
  cases effect with
  | create queue => exact (hkept fun _ => rfl).symm
  | delete queue =>
      rw [apply, GoMap.lookup_retain]
      congr 1
      funext msg
      simp [Effect.deletes, eq_comm]
  | subscribe queue policy =>
      rw [apply, pending_editPolicies]
      exact (hkept fun _ => rfl).symm
  | unsubscribe queue subName =>
      rw [apply, pending_editPolicies]
      exact (hkept fun _ => rfl).symm
  | accept queue id content subList =>
      have hid : msgId ≠ id := fun heq => hother (congrArg some heq.symm)
      rw [hkept fun _ => rfl, apply]
      split_ifs
      · rfl
      · rw [GoMap.lookup_insert_eq, if_neg hid]
  | settle queue id subName =>
      have hid : msgId ≠ id := fun heq => hother (congrArg some heq.symm)
      rw [hkept fun _ => rfl, apply, lookup_settle_other ledger subName hid]
  | nothing => exact (hkept fun _ => rfl).symm

theorem mem_catalog_apply {ledger : Ledger} {effect : Effect} {name : GoString}
    (hmem : name ∈ (ledger.apply effect).catalog) :
    name ∈ ledger.catalog ∨ effect = .create name := by
  cases effect with
  | create queue =>
      rcases Finmap.mem_insert.mp hmem with rfl | hold
      · exact .inr rfl
      · exact .inl hold
  | delete queue => exact .inl (Finmap.mem_erase.mp hmem).2
  | subscribe queue policy => exact .inl (mem_editPolicies.mp hmem)
  | unsubscribe queue subName => exact .inl (mem_editPolicies.mp hmem)
  | accept queue msgId content subList =>
      rw [apply] at hmem
      split_ifs at hmem <;> exact .inl hmem
  | settle queue msgId subName =>
      rw [apply, catalog_settle] at hmem
      exact .inl hmem
  | nothing => exact .inl hmem

end Ledger

/-- What the coordinator's memory and its log have in common. -/
structure Bookkeeping (cat : Catalog) (log : List Record) : Prop where
  catalog : cat = (({} : Ledger).followAll log).catalog
  policies : GoMap.All FromLog cat
  sound : (({} : Ledger).followAll log).Sound
  ids : (enqueuedIds log).Nodup
  used : ∀ msgId msg, (({} : Ledger).followAll log).pending.lookup msgId = some msg →
    msgId ∈ enqueuedIds log
  snapshots : ∀ msgId msg, (({} : Ledger).followAll log).pending.lookup msgId = some msg →
    Valid msgId ∧ FromLog msg.subList

theorem bookkeeping_empty : Bookkeeping ∅ [] where
  catalog := rfl
  policies := GoMap.all_empty _
  sound := Ledger.sound_empty
  ids := List.nodup_nil
  used := by simp
  snapshots := by simp

theorem Ledger.pending_of_apply {ledger : Ledger} {effect : Effect} {msgId : GoString}
    {msg : Pending} (hpending : (ledger.apply effect).pending.lookup msgId = some msg) :
    (∃ old, ledger.pending.lookup msgId = some old ∧ old.subList = msg.subList) ∨
      ∃ queue content, effect = .accept queue msgId content msg.subList := by
  by_cases hmessage : effect.message = some msgId
  · cases effect with
    | accept queue id content subList =>
        cases hmessage
        rw [apply] at hpending
        split_ifs at hpending
        · exact .inl ⟨msg, hpending, rfl⟩
        · have hlookup := (GoMap.lookup_insert_eq _ _ _ _).symm.trans hpending
          rw [if_pos rfl] at hlookup
          cases hlookup
          exact .inr ⟨queue, content, rfl⟩
    | settle queue id subName =>
        cases hmessage
        rw [apply, lookup_settle_self, Option.bind_eq_some_iff] at hpending
        obtain ⟨old, hold, hafter⟩ := hpending
        split_ifs at hafter
        cases hafter
        exact .inl ⟨old, hold, rfl⟩
    | create _ | delete _ | subscribe _ _ | unsubscribe _ _ | nothing => contradiction
  · rw [lookup_apply_other hmessage, Option.filter_eq_some_iff] at hpending
    exact .inl ⟨msg, hpending.1, rfl⟩

namespace Bookkeeping

variable {cat : Catalog} {log : List Record} {request : Request} {rec : Record}
  {effect : Effect}

theorem policies_apply (hbook : Bookkeeping cat log) (hwrites : cat.Writes request effect) :
    ((({} : Ledger).followAll log).apply effect).catalog.All FromLog := by
  have hpolicies := hbook.policies
  rw [hbook.catalog] at hpolicies
  cases hwrites with
  | createQueue queue => exact hpolicies.insert queue fromLog_empty
  | deleteQueue hqueue => exact hpolicies.erase _
  | updateSubPolicy hqueue policy =>
      exact all_editPolicies hpolicies _ fun _ hfrom => hfrom.insert policy
  | deleteSubPolicy hqueue subName =>
      exact all_editPolicies hpolicies _ fun _ hfrom => hfrom.erase _
  | enqueue hlookup msgId content =>
      rw [Ledger.apply]
      split_ifs <;> exact hpolicies
  | ack queue msgId subName =>
      rw [Ledger.apply, Ledger.catalog_settle]
      exact hpolicies

theorem after_eq (hbook : Bookkeeping cat log) (hrecord : cat.record request = .ok rec)
    (heffect : rec.effect = some effect) :
    cat.after rec = ((({} : Ledger).followAll log).apply effect).catalog := by
  have hvouches := Catalog.vouches_of_record
    (fun name policies hlookup => (hbook.policies name policies hlookup).keyed) hrecord
  rw [hbook.catalog] at hvouches ⊢
  exact Catalog.after_eq heffect hvouches

theorem append (hbook : Bookkeeping cat log) (hrecord : cat.record request = .ok rec)
    (heffect : rec.effect = some effect)
    (hfresh : ∀ msgId ∈ effect.newIds, msgId ∉ enqueuedIds log) :
    Bookkeeping (cat.after rec) (log ++ [rec]) := by
  have hwrites := Catalog.writes_of_effect hrecord heffect
  have hcatalog := hbook.after_eq hrecord heffect
  have hfollow := Ledger.followAll_concat {} log heffect
  refine ⟨?_, ?_, ?_, ?_, ?_, ?_⟩
  · rw [hfollow, hcatalog]
  · rw [hcatalog]
    exact hbook.policies_apply hwrites
  · rw [hfollow]
    refine hbook.sound.apply fun queue msgId content subList haccept => ?_
    subst haccept
    cases hwrites with
    | enqueue hlookup _ _ =>
        rw [← hbook.catalog]
        exact Finmap.mem_iff.mpr ⟨_, hlookup⟩
  · rw [enqueuedIds_concat log heffect]
    refine hbook.ids.append ?_ fun msgId hold hnew => hfresh msgId hnew hold
    cases effect <;> simp [Effect.newIds]
  · intro msgId msg hpending
    rw [enqueuedIds_concat log heffect, List.mem_append]
    rw [hfollow] at hpending
    rcases Ledger.pending_of_apply hpending with ⟨old, hold, -⟩ | ⟨queue, content, rfl⟩
    · exact .inl (hbook.used msgId old hold)
    · exact .inr List.mem_cons_self
  · intro msgId msg hpending
    rw [hfollow] at hpending
    rcases Ledger.pending_of_apply hpending with ⟨old, hold, hsubs⟩ | ⟨queue, content, rfl⟩
    · rw [← hsubs]
      exact hbook.snapshots msgId old hold
    · generalize msg.subList = snapshot at hwrites ⊢
      cases hwrites with
      | enqueue hlookup _ _ =>
          have hsubs := hbook.policies _ _ hlookup
          rw [hsubs.coerceMap_eq]
          exact ⟨valid_toValid _, hsubs⟩

theorem lookup_of_fresh (hbook : Bookkeeping cat log) {msgId : GoString}
    (hfresh : msgId ∉ enqueuedIds log) :
    (({} : Ledger).followAll log).pending.lookup msgId = none := by
  cases hpending : (({} : Ledger).followAll log).pending.lookup msgId with
  | none => rfl
  | some msg => exact absurd (hbook.used msgId msg hpending) hfresh

theorem mem_after (hbook : Bookkeeping cat log) (hrecord : cat.record request = .ok rec)
    (heffect : rec.effect = some effect) {name : GoString} (hmem : name ∈ cat.after rec) :
    name ∈ cat ∨ effect = .create name := by
  rw [hbook.after_eq hrecord heffect] at hmem
  rw [hbook.catalog]
  exact Ledger.mem_catalog_apply hmem

end Bookkeeping

end SimonMQ.Durable
