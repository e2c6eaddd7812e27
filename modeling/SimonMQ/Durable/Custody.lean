import SimonMQ.Durable.Account
import SimonMQ.Durable.Broker

namespace SimonMQ.Durable

open SimonMQ.Go
open SimonMQ.Go.Utf8

/-! Which messages a queue object holds, against what the log says about them.  All of
it rests on message ids not being used twice, and on nothing else. -/

/-- The id of a message as the log shows it. -/
def QueueMsg.logId (msg : QueueMsg) : GoString := toValid msg.msgId

@[simp] theorem QueueMsg.logId_markAcked (msg : QueueMsg) (subName : GoString) :
    (msg.markAcked subName).logId = msg.logId := rfl

def QueueMsg.Done (msg : QueueMsg) : Prop := msg.subPolicySnapshot.keys ⊆ msg.ackedSubs

/-- The messages differ at most in their retry counts and payloads. -/
structure QueueMsg.Same (msg other : QueueMsg) : Prop where
  msgId : msg.msgId = other.msgId
  snapshot : msg.subPolicySnapshot = other.subPolicySnapshot
  acked : msg.ackedSubs = other.ackedSubs

theorem QueueMsg.Same.refl (msg : QueueMsg) : msg.Same msg := ⟨rfl, rfl, rfl⟩

theorem QueueMsg.Same.logId {msg other : QueueMsg} (hsame : msg.Same other) :
    msg.logId = other.logId :=
  congrArg toValid hsame.msgId

/-- A message in memory is what the log says it is, and the log still owes it as long
as it survives and somebody waits. -/
structure QueueMsg.Kept (msg : QueueMsg) (log : List Record) (queue : GoString) : Prop where
  snapshot : FromLog msg.subPolicySnapshot
  agrees : ∀ pending, (({} : Ledger).followAll log).pending.lookup msg.logId = some pending →
    pending.queue = queue ∧ pending.subList = msg.subPolicySnapshot ∧
      pending.acked = msg.ackedSubs
  owed : survives queue msg.logId log = true → ¬ msg.Done →
    ∃ pending, (({} : Ledger).followAll log).pending.lookup msg.logId = some pending

namespace QueueMsg.Kept

variable {msg : QueueMsg} {log : List Record} {queue : GoString} {rec : Record}
  {effect : Effect}

theorem not_done (hkept : msg.Kept log queue) (hsound : (({} : Ledger).followAll log).Sound)
    {pending : Pending}
    (hpending : (({} : Ledger).followAll log).pending.lookup msg.logId = some pending) :
    ¬ msg.Done := by
  obtain ⟨_, hsubs, hacked⟩ := hkept.agrees pending hpending
  have hwaits := hsound.waiting msg.logId pending hpending
  rwa [hsubs, hacked] at hwaits

theorem append (hkept : msg.Kept log queue) (heffect : rec.effect = some effect)
    (hother : effect.message ≠ some msg.logId) : msg.Kept (log ++ [rec]) queue := by
  have hfollow := Ledger.followAll_concat {} log heffect
  refine ⟨hkept.snapshot, fun pending hpending => ?_, fun halive hwaits => ?_⟩
  · rw [hfollow, Ledger.lookup_apply_other hother, Option.filter_eq_some_iff] at hpending
    exact hkept.agrees pending hpending.1
  · rw [survives_concat _ _ _ heffect, Effect.not_accepts hother, Bool.or_false,
      Bool.and_eq_true] at halive
    obtain ⟨pending, hpending⟩ := hkept.owed halive.1 hwaits
    refine ⟨pending, ?_⟩
    rw [hfollow, Ledger.lookup_apply_other hother, hpending, Option.filter_eq_some_iff,
      (hkept.agrees pending hpending).1]
    exact ⟨rfl, halive.2⟩

theorem markAcked (hkept : msg.Kept log queue) {name subName : GoString}
    (heffect : rec.effect = some (.settle name msg.logId subName)) :
    (msg.markAcked subName).Kept (log ++ [rec]) queue := by
  have hlookup := Ledger.lookup_settle_self (({} : Ledger).followAll log) msg.logId subName
  have hfollow := Ledger.followAll_concat {} log heffect
  rw [Ledger.apply] at hfollow
  rw [← hfollow] at hlookup
  refine ⟨hkept.snapshot, fun pending hpending => ?_, fun halive hwaits => ?_⟩
  · rw [logId_markAcked, hlookup, Option.bind_eq_some_iff] at hpending
    obtain ⟨old, hold, hafter⟩ := hpending
    obtain ⟨hqueue, hsubs, hacked⟩ := hkept.agrees old hold
    split_ifs at hafter
    cases hafter
    exact ⟨hqueue, hsubs, congrArg (insert subName) hacked⟩
  · rw [logId_markAcked, survives_concat _ _ _ heffect] at halive
    have hbefore : survives queue msg.logId log = true := by
      simpa [Effect.accepts, Effect.deletes] using halive
    have hnotDone : ¬ msg.Done := fun hdone =>
      hwaits (hdone.trans (Finset.subset_insert subName msg.ackedSubs))
    obtain ⟨old, hold⟩ := hkept.owed hbefore hnotDone
    obtain ⟨_, hsubs, hacked⟩ := hkept.agrees old hold
    have hmissing : ¬ old.subList.keys ⊆ insert subName old.acked := by
      rw [hsubs, hacked]
      exact hwaits
    rw [logId_markAcked, hlookup, hold, Option.bind_some, if_neg hmissing]
    exact ⟨_, rfl⟩

theorem accepted {msgId payload content : GoString} {subList : GoMap SubPolicy}
    (hsubs : FromLog subList)
    (hunused : (({} : Ledger).followAll log).pending.lookup (toValid msgId) = none)
    (heffect : rec.effect = some (.accept queue (toValid msgId) content subList)) :
    (newQueueMsg msgId payload subList ∅).Kept (log ++ [rec]) queue := by
  have hfollow := Ledger.followAll_concat {} log heffect
  have hlookup : (({} : Ledger).followAll (log ++ [rec])).pending.lookup (toValid msgId) =
      if subList.keys = ∅ then none else some ⟨queue, content, subList, ∅⟩ := by
    rw [hfollow, Ledger.apply]
    split_ifs
    · exact hunused
    · exact (GoMap.lookup_insert_eq _ _ _ _).trans (if_pos rfl)
  refine ⟨hsubs, fun pending hpending => ?_, fun _ hwaits => ?_⟩
  · rw [show (newQueueMsg msgId payload subList ∅).logId = toValid msgId from rfl,
      hlookup] at hpending
    split_ifs at hpending
    cases hpending
    exact ⟨rfl, rfl, rfl⟩
  · have hsome : subList.keys ≠ ∅ := by
      intro hempty
      apply hwaits
      simp [Done, newQueueMsg, hempty]
    exact ⟨_, hlookup.trans (if_neg hsome)⟩

theorem of_same {other : QueueMsg} (hkept : msg.Kept log queue) (hsame : other.Same msg) :
    other.Kept log queue := by
  have hlogId := hsame.logId
  obtain ⟨_, hsubs, hacked⟩ := hsame
  refine ⟨hsubs ▸ hkept.snapshot, fun pending hpending => ?_, fun halive hwaits => ?_⟩
  · rw [hsubs, hacked]
    exact hkept.agrees pending (hlogId ▸ hpending)
  · rw [Done, hsubs, hacked] at hwaits
    rw [hlogId]
    exact hkept.owed (hlogId ▸ halive) hwaits

end QueueMsg.Kept

/-! One pass of a worker. -/

namespace QueueMsg

theorem mem_policyByName {msg : QueueMsg} {name : GoString} :
    name ∈ msg.policyByName.keys ↔
      name ∈ msg.subPolicySnapshot.keys ∧ name ∉ msg.ackedSubs := by
  simp only [Finmap.mem_keys, Finmap.mem_iff, policyByName, GoMap.lookup_retain_key]
  by_cases hacked : name ∈ msg.ackedSubs <;> simp [hacked]

theorem done_of_policyByName {msg : QueueMsg} (hnone : msg.policyByName.len = 0) :
    msg.Done := by
  intro name hname
  by_contra hacked
  have hmem := mem_policyByName.mpr ⟨hname, hacked⟩
  rw [GoMap.len, Finset.card_eq_zero] at hnone
  rw [hnone] at hmem
  contradiction

section Judge

variable (policyByName : GoMap SubPolicy) (msg : QueueMsg) (result : DeliveryResult)

@[simp] theorem judge_msgId : (msg.judge policyByName result).1.msgId = msg.msgId := by
  unfold judge
  split_ifs <;> rfl

@[simp] theorem judge_subPolicySnapshot :
    (msg.judge policyByName result).1.subPolicySnapshot = msg.subPolicySnapshot := by
  unfold judge
  split_ifs <;> rfl

@[simp] theorem judge_ackedSubs :
    (msg.judge policyByName result).1.ackedSubs = msg.ackedSubs := by
  unfold judge
  split_ifs <;> rfl

end Judge

namespace Pass

/-- The results left are for subscribers that wait, one each; nobody else waits unless
the message is going to be added again. -/
structure Due (pass : Pass) (left : List DeliveryResult) : Prop where
  names : (left.map DeliveryResult.subName).Nodup
  waiting : ∀ result ∈ left, result.subName ∈ pass.msg.subPolicySnapshot.keys ∧
    result.subName ∉ pass.msg.ackedSubs
  rest : pass.anySubsRemaining = false → ∀ name ∈ pass.msg.subPolicySnapshot.keys,
    name ∈ pass.msg.ackedSubs ∨ name ∈ left.map DeliveryResult.subName

theorem due_answers {msg : QueueMsg} (hkeyed : KeyedByName msg.subPolicySnapshot)
    (order : GoMap.Order SubPolicy) (outcome : GoString → Bool) :
    Due { msg } (msg.answers order outcome) := by
  have hpolicies : KeyedByName msg.policyByName := by
    intro name policy hpolicy
    rw [policyByName, GoMap.lookup_retain, Option.filter_eq_some_iff] at hpolicy
    exact hkeyed name policy hpolicy.1
  have hnames : (msg.answers order outcome).map DeliveryResult.subName =
      (order.walk msg.policyByName).map Prod.fst := by
    rw [answers, List.map_map]
    exact (walk_subNames hpolicies order id).trans (List.map_id _)
  have hmem : ∀ name, name ∈ (msg.answers order outcome).map DeliveryResult.subName ↔
      name ∈ msg.subPolicySnapshot.keys ∧ name ∉ msg.ackedSubs := by
    intro name
    rw [hnames, GoMap.mem_walk_names, mem_policyByName]
  refine ⟨?_, fun result hresult => ?_, fun _ name hname => ?_⟩
  · rw [hnames]
    exact (order.enumerates _).1
  · exact (hmem result.subName).mp (List.mem_map_of_mem hresult)
  · by_cases hacked : name ∈ msg.ackedSubs
    · exact .inl hacked
    · exact .inr ((hmem name).mpr ⟨hname, hacked⟩)

variable {pass : Pass} {policyByName : GoMap SubPolicy} {result : DeliveryResult}
  {left : List DeliveryResult}

theorem take_of_acked (hacked : (pass.msg.judge policyByName result).2 = true) :
    pass.take policyByName (fun _ => true) result =
      { pass with
        msg := (pass.msg.judge policyByName result).1.markAcked result.subName
        acks := pass.acks ++ [result.subName] } := by
  simp [take, hacked]

theorem take_of_not_acked (hacked : (pass.msg.judge policyByName result).2 = false) :
    pass.take policyByName (fun _ => true) result =
      { pass with
        msg := (pass.msg.judge policyByName result).1
        anySubsRemaining := true } := by
  simp [take, hacked]

@[simp] theorem logId_take (pass : Pass) (policyByName : GoMap SubPolicy)
    (result : DeliveryResult) :
    (pass.take policyByName (fun _ => true) result).msg.logId = pass.msg.logId := by
  cases hacked : (pass.msg.judge policyByName result).2 with
  | true => simp [take_of_acked hacked, logId, QueueMsg.markAcked]
  | false => simp [take_of_not_acked hacked, logId]

theorem Due.take (hdue : pass.Due (result :: left)) (policyByName : GoMap SubPolicy) :
    (pass.take policyByName (fun _ => true) result).Due left := by
  have hnames := hdue.names
  rw [List.map_cons, List.nodup_cons] at hnames
  cases hacked : (pass.msg.judge policyByName result).2 with
  | true =>
      rw [take_of_acked hacked]
      refine ⟨hnames.2, fun other hother => ?_, fun hnone name hname => ?_⟩
      · obtain ⟨hsub, hwaits⟩ := hdue.waiting other (List.mem_cons_of_mem _ hother)
        have hdistinct : other.subName ≠ result.subName := fun heq =>
          hnames.1 (heq ▸ List.mem_map_of_mem hother)
        simpa [QueueMsg.markAcked, hdistinct] using And.intro hsub hwaits
      · have hbefore := hdue.rest hnone name (by simpa [QueueMsg.markAcked] using hname)
        rw [List.map_cons, List.mem_cons] at hbefore
        simp only [QueueMsg.markAcked, judge_ackedSubs, Finset.mem_insert]
        tauto
  | false =>
      rw [take_of_not_acked hacked]
      refine ⟨hnames.2, fun other hother => ?_, fun hnone => by contradiction⟩
      simpa using hdue.waiting other (List.mem_cons_of_mem _ hother)

theorem Due.done (hdue : pass.Due []) (hnone : pass.anySubsRemaining = false) :
    pass.msg.Done := by
  intro name hname
  rcases hdue.rest hnone name hname with hacked | hleft
  · exact hacked
  · contradiction

end Pass

end QueueMsg

/-! One queue object. -/

def Queue.ids (q : Queue) : List GoString := q.items.map QueueMsg.logId

def WorkerPhase.Orderly : WorkerPhase → Prop
  | .settling _ pass left => pass.Due left
  | _ => True

structure Queue.Kept (q : Queue) (log : List Record) : Prop where
  items : ∀ msg ∈ q.items, msg.Kept log q.name
  ids : q.ids.Nodup
  worker : q.worker.Orderly

/-- What a worker's step leaves of the messages: all of them as they were, or one acked
by one more subscriber. -/
inductive Queue.Outcome (q next : Queue) : Option Request → Prop
  | quiet (hitems : ∀ msg ∈ next.items, ∃ old ∈ q.items, msg.Same old) :
      q.Outcome next none
  | acked {hand : QueueMsg} {subName : GoString} (hhand : hand ∈ q.items)
      (hsub : subName ∈ hand.subPolicySnapshot.keys) (hwaits : subName ∉ hand.ackedSubs)
      (hitems : ∀ msg ∈ next.items,
        (msg ∈ q.items ∧ msg.logId ≠ hand.logId) ∨ msg.Same (hand.markAcked subName)) :
      q.Outcome next (some (.ack q.name hand.msgId subName))

/-- Everything that a worker's step can do to its object. -/
structure Queue.Moved (q next : Queue) (request : Option Request) : Prop where
  name : next.name = q.name
  isClosed : next.isClosed = q.isClosed
  returned : next.worker = .returned → q.isClosed = true
  worker : next.worker.Orderly
  ids : next.ids.Subperm q.ids
  /-- only a message that is done is let go -/
  lost : ∀ msg ∈ q.items, msg.logId ∈ next.ids ∨ msg.Done
  outcome : q.Outcome next request

namespace Queue

variable {q next : Queue} {log : List Record}

theorem moved_of_perm (hname : next.name = q.name) (hclosed : next.isClosed = q.isClosed)
    (hreturned : next.worker = .returned → q.isClosed = true)
    (hworker : next.worker.Orderly) (hitems : next.items.Perm q.items) :
    q.Moved next none where
  name := hname
  isClosed := hclosed
  returned := hreturned
  worker := hworker
  ids := (hitems.map QueueMsg.logId).subperm
  lost := fun _ hmsg => .inl (List.mem_map_of_mem (hitems.mem_iff.mpr hmsg))
  outcome := .quiet fun msg hmsg => ⟨msg, hitems.mem_iff.mp hmsg, .refl msg⟩

theorem moved_of_dropped {msg : QueueMsg} (hname : next.name = q.name)
    (hclosed : next.isClosed = q.isClosed) (hworker : next.worker = .popping)
    (hdone : msg.Done) (hitems : q.items.Perm (msg :: next.items)) :
    q.Moved next none where
  name := hname
  isClosed := hclosed
  returned := fun hreturned => by rw [hworker] at hreturned; contradiction
  worker := by rw [hworker]; trivial
  ids := by
    have hids := hitems.map QueueMsg.logId
    exact (List.sublist_cons_self _ _).subperm.trans hids.symm.subperm
  lost := by
    intro other hother
    rcases List.mem_cons.mp (hitems.mem_iff.mp hother) with rfl | hleft
    · exact .inr hdone
    · exact .inl (List.mem_map_of_mem hleft)
  outcome := .quiet fun other hother =>
    ⟨other, hitems.mem_iff.mpr (List.mem_cons_of_mem _ hother), .refl other⟩

theorem moved_of_settle {policyByName : GoMap SubPolicy} {pass : QueueMsg.Pass}
    {result : DeliveryResult} {left : List DeliveryResult} (hkept : q.Kept log)
    (hworker : q.worker = .settling policyByName pass (result :: left)) :
    q.Moved
      { q with
        worker := .settling policyByName (pass.take policyByName (fun _ => true) result)
          left }
      (if (pass.msg.judge policyByName result).2 then
        some (.ack q.name pass.msg.msgId result.subName)
      else none) := by
  have hdue : pass.Due (result :: left) := by
    have horderly := hkept.worker
    rwa [hworker] at horderly
  have hitems : q.items = q.adding ++ [pass.msg] ++ q.buf := by
    rw [items, hworker]
    rfl
  have hothers : ∀ msg ∈ q.adding ++ q.buf,
      msg ∈ q.items ∧ msg.logId ≠ pass.msg.logId := by
    intro msg hmsg
    have hids := hkept.ids
    rw [ids, hitems, List.append_assoc, List.singleton_append, List.map_append, List.map_cons,
      List.nodup_middle, List.nodup_cons, ← List.map_append] at hids
    refine ⟨?_, fun heq => hids.1 (heq ▸ List.mem_map_of_mem hmsg)⟩
    rw [hitems]
    grind
  have hids : ids { q with
      worker := .settling policyByName (pass.take policyByName (fun _ => true) result)
        left } = q.ids := by
    simp [ids, items, hworker, WorkerPhase.hand]
  refine ⟨rfl, rfl, fun hreturned => by contradiction, hdue.take policyByName, ?_, ?_, ?_⟩
  · rw [hids]
  · intro msg hmsg
    rw [hids]
    exact .inl (List.mem_map_of_mem hmsg)
  · cases hacked : (pass.msg.judge policyByName result).2 with
    | true =>
        obtain ⟨hsub, hwaits⟩ := hdue.waiting result List.mem_cons_self
        rw [if_pos rfl]
        refine .acked (by simp [hitems]) hsub hwaits fun msg hmsg => ?_
        simp only [items, WorkerPhase.hand, QueueMsg.Pass.take_of_acked hacked] at hmsg
        by_cases hold : msg ∈ q.adding ++ q.buf
        · exact .inl (hothers msg hold)
        · have hnew : msg = (pass.msg.judge policyByName result).1.markAcked
              result.subName := by grind
          subst hnew
          exact .inr ⟨by simp [QueueMsg.markAcked], by simp [QueueMsg.markAcked],
            by simp [QueueMsg.markAcked]⟩
    | false =>
        refine .quiet fun msg hmsg => ?_
        simp only [items, WorkerPhase.hand, QueueMsg.Pass.take_of_not_acked hacked] at hmsg
        by_cases hold : msg ∈ q.adding ++ q.buf
        · exact ⟨msg, (hothers msg hold).1, .refl msg⟩
        · have hnew : msg = (pass.msg.judge policyByName result).1 := by grind
          subst hnew
          exact ⟨pass.msg, by simp [hitems], by simp, by simp, by simp⟩

theorem moved (hkept : q.Kept log) {move : Move} {request : Option Request}
    (hmove : q.move move = some (next, request)) : q.Moved next request := by
  cases move with
  | pop =>
      simp only [Queue.move] at hmove
      split at hmove
      · rename_i hworker hbuf
        cases hmove
        exact moved_of_perm rfl rfl (by simp) trivial (by simp [items, hworker, WorkerPhase.hand])
      · rename_i msg buf hworker hbuf
        split_ifs at hmove with hnone
        · cases hmove
          refine moved_of_dropped rfl rfl hworker (QueueMsg.done_of_policyByName hnone) ?_
          simp [items, hworker, hbuf, WorkerPhase.hand, List.perm_middle]
        · cases hmove
          refine moved_of_perm rfl rfl (by simp) trivial ?_
          simp [items, hworker, hbuf, WorkerPhase.hand]
      · contradiction
  | wake =>
      simp only [Queue.move] at hmove
      split at hmove
      · rename_i hworker _
        cases hmove
        exact moved_of_perm rfl rfl (by simp) trivial (by simp [items, hworker, WorkerPhase.hand])
      · contradiction
  | exit =>
      simp only [Queue.move] at hmove
      split at hmove
      · rename_i hworker hclosed
        cases hmove
        exact moved_of_perm rfl rfl (fun _ => hclosed) trivial
          (by simp [items, hworker, WorkerPhase.hand])
      · contradiction
  | deliver order outcome =>
      simp only [Queue.move] at hmove
      split at hmove
      · rename_i msg hworker
        cases hmove
        have hmem : msg ∈ q.items := by simp [items, hworker, WorkerPhase.hand]
        refine moved_of_perm rfl rfl (by simp) ?_ (by simp [items, hworker, WorkerPhase.hand])
        exact QueueMsg.Pass.due_answers (hkept.items msg hmem).snapshot.keyed order outcome
      · contradiction
  | settle =>
      simp only [Queue.move] at hmove
      split at hmove
      · rename_i policyByName pass result left hworker
        cases hmove
        exact moved_of_settle hkept hworker
      · contradiction
  | finish =>
      simp only [Queue.move] at hmove
      split at hmove
      · rename_i policyByName pass hworker
        cases hmove
        have hdue : pass.Due [] := by
          have horderly := hkept.worker
          rwa [hworker] at horderly
        cases hremaining : pass.anySubsRemaining with
        | true =>
            refine moved_of_perm rfl rfl (by simp) trivial ?_
            have hperm : (q.buf ++ [pass.msg]).Perm ([pass.msg] ++ q.buf) :=
              List.perm_append_comm
            simpa [items, hworker, WorkerPhase.hand, add] using hperm.append_left q.adding
        | false =>
            refine moved_of_dropped rfl rfl rfl (hdue.done hremaining) ?_
            simp [items, hworker, WorkerPhase.hand, List.perm_middle]
      · contradiction

end Queue

end SimonMQ.Durable
