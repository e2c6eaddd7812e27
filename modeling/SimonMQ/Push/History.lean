import SimonMQ.Push.Registry

namespace SimonMQ.Push

open SimonMQ.Go
open SimonMQ.Attempts
open SimonMQ.Transition

/-! What becomes of a message, told from what can be seen of the run. -/

def acceptedIds (seen : List Sight) : List GoString := seen.filterMap Sight.acceptedId

def retiredIds (seen : List Sight) : List GoString := seen.filterMap Sight.retiredId

def attempts (seen : List Sight) : List (Attempt (GoString × GoString)) :=
  seen.filterMap Sight.attempt

section Append

variable (seen later : List Sight)

@[simp] theorem acceptedIds_append :
    acceptedIds (seen ++ later) = acceptedIds seen ++ acceptedIds later :=
  List.filterMap_append

@[simp] theorem retiredIds_append :
    retiredIds (seen ++ later) = retiredIds seen ++ retiredIds later :=
  List.filterMap_append

@[simp] theorem attempts_append :
    attempts (seen ++ later) = attempts seen ++ attempts later :=
  List.filterMap_append

end Append

namespace Queue

def held (q : Queue) : List QueueMsg := if q.worker.hasReturned then [] else q.items

def abandoned (q : Queue) : List QueueMsg := if q.worker.hasReturned then q.items else []

theorem held_append_abandoned (q : Queue) : q.held ++ q.abandoned = q.items := by
  unfold held abandoned
  split_ifs <;> simp

end Queue

namespace Broker

/-- Every message of every object ever made, also of those that nobody serves any more. -/
def custody (b : Broker) : List QueueMsg := b.objects.flatMap Queue.items

/-- The messages of the objects whose worker is still there. -/
def held (b : Broker) : List QueueMsg := b.objects.flatMap Queue.held

/-- The messages that the workers of deleted queues have left behind. -/
def abandoned (b : Broker) : List QueueMsg := b.objects.flatMap Queue.abandoned

def elsewhere (b : Broker) (object : Nat) : List QueueMsg :=
  (b.objects.eraseIdx object).flatMap Queue.items

variable {b : Broker} {object : Nat} {q : Queue}

theorem custody_perm (hobject : b.objects[object]? = some q) :
    b.custody.Perm (q.items ++ b.elsewhere object) := by
  obtain ⟨hlt, rfl⟩ := List.getElem?_eq_some_iff.mp hobject
  have hperm := (List.getElem_cons_eraseIdx_perm hlt).symm.flatMap_right Queue.items
  rwa [List.flatMap_cons] at hperm

theorem custody_perm_held (b : Broker) : b.custody.Perm (b.held ++ b.abandoned) := by
  have hperm := List.flatMap_append_perm b.objects Queue.held Queue.abandoned
  simp only [Queue.held_append_abandoned] at hperm
  exact hperm.symm

theorem Sound.of_mem_abandoned (hsound : b.Sound) {msg : QueueMsg} (hmsg : msg ∈ b.abandoned) :
    ∃ object q, b.objects[object]? = some q ∧ msg ∈ q.buf ∧ q.worker = .returned ∧
      q.isClosed = true ∧ ∀ name, b.queues.lookup name ≠ some object := by
  obtain ⟨q, hmem, hitem⟩ := List.mem_flatMap.mp hmsg
  obtain ⟨object, hobject⟩ := List.mem_iff_getElem?.mp hmem
  unfold Queue.abandoned at hitem
  split_ifs at hitem with hreturned
  · have hworker := WorkerPhase.eq_returned hreturned
    have hclosed := (hsound.queues_ok q hmem).returned hworker
    refine ⟨object, q, hobject, ?_, hworker, hclosed, fun name hfound => ?_⟩
    · simpa [Queue.items, hworker, WorkerPhase.hand] using hitem
    · obtain ⟨other, hother, -, hopen⟩ := hsound.registered hfound
      cases hobject.symm.trans hother
      rw [hclosed] at hopen
      contradiction
  · contradiction

theorem custody_setObject_perm (hobject : b.objects[object]? = some q) (next : Queue) :
    (b.setObject object next).custody.Perm (next.items ++ b.elsewhere object) := by
  have hlt : object < b.objects.length := (List.getElem?_eq_some_iff.mp hobject).1
  have hself : (b.setObject object next).objects[object]? = some next :=
    List.getElem?_set_self hlt
  have hperm := custody_perm hself
  rwa [elsewhere, Broker.setObject, List.eraseIdx_set_eq] at hperm

theorem custody_setObject_of_items (hobject : b.objects[object]? = some q) {next : Queue}
    (hitems : next.items.Perm q.items) : (b.setObject object next).custody.Perm b.custody :=
  (custody_setObject_perm hobject next).trans
    ((hitems.append_right _).trans (custody_perm hobject).symm)

end Broker

/-- The history against the message: whoever has not acked was reached for in vain, as
often as the message says, and whoever has is done with. -/
structure Tally (history : List (Attempt (GoString × GoString))) (msg : QueueMsg) : Prop where
  waiting : ∀ name ∉ msg.ackedSubs,
    outcomes (msg.msgId, name) history = List.replicate (msg.failures name) false ∧
      msg.failures name < 100
  settled : ∀ name ∈ msg.ackedSubs, Settled history (msg.msgId, name)

theorem tally_new {history : List (Attempt (GoString × GoString))} {msg : QueueMsg}
    (hacked : msg.ackedSubs = ∅) (hretries : msg.retryMap = ∅)
    (hnew : ∀ attempt ∈ history, attempt.key.1 ≠ msg.msgId) : Tally history msg where
  waiting := by
    intro name _
    have hnone : outcomes (msg.msgId, name) history = [] :=
      outcomes_of_not_mem fun attempt hmem hkey => hnew attempt hmem (by rw [hkey])
    simp [hnone, QueueMsg.failures, hretries]
  settled := by simp [hacked]

theorem Tally.append_other {history later : List (Attempt (GoString × GoString))}
    {msg : QueueMsg} (htally : Tally history msg)
    (hother : ∀ attempt ∈ later, attempt.key.1 ≠ msg.msgId) :
    Tally (history ++ later) msg where
  waiting := by
    intro name hname
    have hnone : outcomes (msg.msgId, name) later = [] :=
      outcomes_of_not_mem fun attempt hmem hkey => hother attempt hmem (by rw [hkey])
    rw [outcomes_append, hnone, List.append_nil]
    exact htally.waiting name hname
  settled := fun name hname => (htally.settled name hname).append later

/-! One pass: each pending subscriber is tried once. -/

def passAttempts (msgId : GoString) (policyByName : GoMap SubPolicy)
    (order : GoMap.Order SubPolicy) (ok : GoString → Bool) :
    List (Attempt (GoString × GoString)) :=
  (order.walk policyByName).map fun entry =>
    ⟨(msgId, entry.2.subName), entry.2.numberOfRetries.toInt, ok entry.2.subName⟩

section PassAttempts

variable {msgId : GoString} {policyByName : GoMap SubPolicy} {order : GoMap.Order SubPolicy}
  {ok : GoString → Bool}

theorem key_of_mem_passAttempts {attempt : Attempt (GoString × GoString)}
    (hmem : attempt ∈ passAttempts msgId policyByName order ok) : attempt.key.1 = msgId := by
  obtain ⟨entry, _, rfl⟩ := List.mem_map.mp hmem
  rfl

variable (hok : SubscribersOk policyByName)

include hok

theorem mem_passAttempts {name : GoString} {policy : SubPolicy}
    (hpolicy : policyByName.lookup name = some policy) :
    ⟨(msgId, name), policy.numberOfRetries.toInt, ok name⟩ ∈
      passAttempts msgId policyByName order ok := by
  refine List.mem_map.mpr ⟨(name, policy), ?_, ?_⟩
  · exact ((order.enumerates policyByName).2 name policy).mpr hpolicy
  · rw [(hok name policy hpolicy).1]

theorem nodup_passAttempts :
    ((passAttempts msgId policyByName order ok).map Attempt.key).Nodup := by
  have hkeys : (passAttempts msgId policyByName order ok).map Attempt.key =
      ((order.walk policyByName).map Prod.fst).map fun name => (msgId, name) := by
    rw [passAttempts, List.map_map]
    exact Durable.walk_subNames hok.keyed order fun name => (msgId, name)
  rw [hkeys]
  exact (order.enumerates policyByName).1.map fun _ _ heq => (Prod.mk.inj heq).2

theorem outcomes_passAttempts {name : GoString} {policy : SubPolicy}
    (hpolicy : policyByName.lookup name = some policy) :
    outcomes (msgId, name) (passAttempts msgId policyByName order ok) = [ok name] :=
  outcomes_of_mem (nodup_passAttempts hok) (mem_passAttempts hok hpolicy) rfl

theorem outcomes_passAttempts_of_none {name : GoString}
    (hnone : policyByName.lookup name = none) :
    outcomes (msgId, name) (passAttempts msgId policyByName order ok) = [] := by
  apply outcomes_of_not_mem
  intro attempt hmem hkey
  obtain ⟨entry, hentry, rfl⟩ := List.mem_map.mp hmem
  have hfound := (order.enumerates policyByName).lookup_of_mem hentry
  have hname := (hok entry.1 entry.2 hfound).1
  rw [Prod.mk.injEq, hname] at hkey
  rw [hkey.2, hnone] at hfound
  contradiction

end PassAttempts

section Pass

variable {history : List (Attempt (GoString × GoString))} {msg : QueueMsg}
  {policyByName : GoMap SubPolicy} {ok : GoString → Bool} {pass : QueueMsg.Pass}
  (htally : Tally history msg) (hsending : Sending policyByName msg)
  (order : GoMap.Order SubPolicy)

include htally hsending

theorem Tally.delivered (hdelivered : msg.Delivered policyByName ok pass) :
    Tally (history ++ passAttempts msg.msgId policyByName order ok) pass.msg where
  waiting := by
    intro name hname
    rw [hdelivered.acked_iff, not_or] at hname
    obtain ⟨houtcomes, hfew⟩ := htally.waiting name hname.1
    rw [hdelivered.msgId_eq, hdelivered.failures_eq, outcomes_append, houtcomes]
    cases hpolicy : policyByName.lookup name with
    | none =>
        rw [outcomes_passAttempts_of_none hsending.subscribers hpolicy, List.append_nil,
          if_neg fun hmem => Finmap.lookup_eq_none.mp hpolicy hmem.1]
        exact ⟨rfl, hfew⟩
    | some policy =>
        have hopen : ok name = false ∧
            (msg.failures name + 1 : Nat) < policy.numberOfRetries.toInt := by
          simpa [hpolicy] using hname.2
        have hlimit := (hsending.subscribers name policy hpolicy).2.retries_le
        rw [outcomes_passAttempts hsending.subscribers hpolicy, hopen.1,
          if_pos ⟨Finmap.mem_iff.mpr ⟨policy, hpolicy⟩, rfl⟩, List.replicate_succ']
        exact ⟨rfl, by omega⟩
  settled := by
    intro name hname
    rw [hdelivered.msgId_eq]
    rcases (hdelivered.acked_iff name).mp hname with hacked | ⟨policy, hpolicy, hcause⟩
    · exact (htally.settled name hacked).append _
    · have hwaiting := htally.waiting name (hsending.pending name policy hpolicy)
      have hnew : outcomes (msg.msgId, name)
          (passAttempts msg.msgId policyByName order ok) = [ok name] :=
        outcomes_passAttempts hsending.subscribers hpolicy
      cases hresult : ok name with
      | true => exact .inl (by rw [outcomes_append, hnew, hresult]; simp)
      | false =>
          have hbudget := hcause.resolve_left (by rw [hresult]; decide)
          refine .inr ⟨_, List.mem_append_right _
            (mem_passAttempts hsending.subscribers hpolicy), rfl, ?_⟩
          rw [failures_append, failures, failures, hwaiting.1, hnew, hresult]
          simpa using hbudget

theorem bounded_pass (hbounded : ∀ key, Bounded 100 history key)
    (key : GoString × GoString) :
    Bounded 100 (history ++ passAttempts msg.msgId policyByName order ok) key := by
  by_cases hattempted :
      ∀ attempt ∈ passAttempts msg.msgId policyByName order ok, attempt.key ≠ key
  · exact (hbounded key).append_of_not_mem hattempted
  · push Not at hattempted
    obtain ⟨attempt, hmem, rfl⟩ := hattempted
    obtain ⟨⟨name, policy⟩, hentry, rfl⟩ := List.mem_map.mp hmem
    have hpolicy := (order.enumerates policyByName).lookup_of_mem hentry
    have hname := (hsending.subscribers name policy hpolicy).1
    obtain ⟨houtcomes, hfew⟩ := htally.waiting name (hsending.pending name policy hpolicy)
    simp only [hname]
    have hall : outcomes (msg.msgId, name)
          (history ++ passAttempts msg.msgId policyByName order ok) =
        List.replicate (msg.failures name) false ++ [ok name] := by
      rw [outcomes_append, houtcomes, outcomes_passAttempts hsending.subscribers hpolicy]
    cases hresult : ok name with
    | true => exact bounded_of_success hfew (by rw [hall, hresult])
    | false =>
        exact bounded_of_replicate hfew (by rw [hall, hresult, ← List.replicate_succ'])

end Pass

/-- Every accepted message is in memory or was retired, exactly one of the two, and was
sent around within bounds. -/
structure Traced (b : Broker) (seen : List Sight) : Prop where
  balance : (acceptedIds seen).Perm (b.custody.map QueueMsg.msgId ++ retiredIds seen)
  known : ∀ attempt ∈ attempts seen, attempt.key.1 ∈ acceptedIds seen
  tallies : ∀ msg ∈ b.custody, Tally (attempts seen) msg
  bounded : ∀ key, Bounded 100 (attempts seen) key
  retired : ∀ {msg subscribers}, .retired msg subscribers ∈ seen →
    subscribers.keys ⊆ msg.ackedSubs ∧
      ∀ name ∈ msg.ackedSubs, Settled (attempts seen) (msg.msgId, name)

namespace Traced

variable {b next : Broker} {seen : List Sight}

theorem initial : Traced {} [] where
  balance := by simp [Broker.custody, acceptedIds, retiredIds]
  known := by simp [attempts]
  tallies := by simp [Broker.custody]
  bounded := fun key => bounded_of_replicate (Nat.zero_le 100) rfl
  retired := by simp

theorem quiet (htraced : Traced b seen) (hperm : next.custody.Perm b.custody)
    {later : List Sight} (hlater : ∀ sight ∈ later, ∃ object policy,
      sight = .subscribed object policy) : Traced next (seen ++ later) := by
  have hnone : ∀ {α : Type} (f : Sight → Option α),
      (∀ object policy, f (.subscribed object policy) = none) → later.filterMap f = [] := by
    intro α f hf
    rw [List.filterMap_eq_nil_iff]
    intro sight hmem
    obtain ⟨object, policy, rfl⟩ := hlater sight hmem
    exact hf object policy
  have haccepted : acceptedIds (seen ++ later) = acceptedIds seen := by
    rw [acceptedIds_append, acceptedIds, acceptedIds, hnone _ fun _ _ => rfl, List.append_nil]
  have hretired : retiredIds (seen ++ later) = retiredIds seen := by
    rw [retiredIds_append, retiredIds, retiredIds, hnone _ fun _ _ => rfl, List.append_nil]
  have hattempts : attempts (seen ++ later) = attempts seen := by
    rw [attempts_append, attempts, attempts, hnone _ fun _ _ => rfl, List.append_nil]
  refine ⟨?_, ?_, ?_, ?_, ?_⟩
  · rw [haccepted, hretired]
    exact htraced.balance.trans ((hperm.symm.map _).append_right _)
  · rw [hattempts, haccepted]
    exact htraced.known
  · rw [hattempts]
    exact fun msg hmem => htraced.tallies msg (hperm.mem_iff.mp hmem)
  · rw [hattempts]
    exact htraced.bounded
  · intro msg subscribers hmem
    rw [hattempts]
    rcases List.mem_append.mp hmem with hold | hnew
    · exact htraced.retired hold
    · obtain ⟨_, _, heq⟩ := hlater _ hnew
      contradiction

theorem publish (htraced : Traced b seen) {object : Nat} {msgId payload : GoString}
    {msg : QueueMsg} (hperm : next.custody.Perm (msg :: b.custody))
    (hmsgId : msg.msgId = msgId) (hacked : msg.ackedSubs = ∅) (hretries : msg.retryMap = ∅)
    (hfresh : msgId ∉ acceptedIds seen) :
    Traced next (seen ++ [.accepted object msgId payload]) := by
  subst hmsgId
  have hsame : attempts (seen ++ [.accepted object msg.msgId payload]) = attempts seen := by
    rw [attempts_append]
    exact List.append_nil _
  have haccepted : acceptedIds (seen ++ [.accepted object msg.msgId payload]) =
      acceptedIds seen ++ [msg.msgId] := acceptedIds_append _ _
  refine ⟨?_, ?_, ?_, ?_, ?_⟩
  · have hretired : retiredIds (seen ++ [.accepted object msg.msgId payload]) =
        retiredIds seen := (retiredIds_append _ _).trans (List.append_nil _)
    rw [haccepted, hretired]
    refine (List.perm_append_singleton _ _).trans ?_
    refine (htraced.balance.cons _).trans ?_
    exact ((hperm.map QueueMsg.msgId).append_right _).symm
  · rw [hsame, haccepted]
    exact fun attempt hmem => List.mem_append_left _ (htraced.known attempt hmem)
  · rw [hsame]
    intro other hother
    rcases List.mem_cons.mp (hperm.mem_iff.mp hother) with rfl | hold
    · refine tally_new hacked hretries fun attempt hmem hkey => hfresh ?_
      rw [← hkey]
      exact htraced.known attempt hmem
    · exact htraced.tallies other hold
  · rw [hsame]
    exact htraced.bounded
  · intro other subscribers hmem
    rw [hsame]
    exact htraced.retired (by simpa using hmem)

theorem drop (htraced : Traced b seen) {msg : QueueMsg} {subscribers : GoMap SubPolicy}
    (hperm : b.custody.Perm (msg :: next.custody))
    (hall : subscribers.keys ⊆ msg.ackedSubs) :
    Traced next (seen ++ [.retired msg subscribers]) := by
  have hsame : attempts (seen ++ [.retired msg subscribers]) = attempts seen := by
    rw [attempts_append]
    exact List.append_nil _
  have haccepted : acceptedIds (seen ++ [.retired msg subscribers]) = acceptedIds seen :=
    (acceptedIds_append _ _).trans (List.append_nil _)
  have hmsg : msg ∈ b.custody := hperm.mem_iff.mpr List.mem_cons_self
  refine ⟨?_, ?_, ?_, ?_, ?_⟩
  · have hretired : retiredIds (seen ++ [.retired msg subscribers]) =
        retiredIds seen ++ [msg.msgId] := retiredIds_append _ _
    rw [haccepted, hretired]
    refine htraced.balance.trans (((hperm.map QueueMsg.msgId).append_right _).trans ?_)
    rw [List.map_cons, ← List.append_assoc]
    exact (List.perm_append_singleton _ _).symm
  · rw [hsame, haccepted]
    exact htraced.known
  · rw [hsame]
    exact fun other hother => htraced.tallies other
      (hperm.mem_iff.mpr (List.mem_cons_of_mem _ hother))
  · rw [hsame]
    exact htraced.bounded
  · intro other policies hmem
    rw [hsame]
    rcases List.mem_append.mp hmem with hold | hnew
    · exact htraced.retired hold
    · cases List.mem_singleton.mp hnew
      exact ⟨hall, (htraced.tallies msg hmsg).settled⟩

end Traced

theorem QueueMsg.keys_subset_of_len_eq_zero {msg : QueueMsg} {subscribers : GoMap SubPolicy}
    (hnone : (msg.policyByName subscribers).len = 0) :
    subscribers.keys ⊆ msg.ackedSubs := by
  intro name hname
  by_contra hwaiting
  obtain ⟨policy, hpolicy⟩ := Finmap.mem_iff.mp (Finmap.mem_keys.mp hname)
  have hpending := QueueMsg.lookup_policyByName.mpr ⟨hpolicy, hwaiting⟩
  rw [(GoMap.len_eq_zero_iff _).mp hnone name] at hpending
  contradiction

theorem QueueMsg.Delivered.keys_subset {msg : QueueMsg} {policyByName : GoMap SubPolicy}
    {ok : GoString → Bool} {pass : QueueMsg.Pass}
    (hdelivered : msg.Delivered policyByName ok pass)
    (hremaining : pass.anySubsRemaining = false) :
    policyByName.keys ⊆ pass.msg.ackedSubs := by
  intro name hname
  obtain ⟨policy, hpolicy⟩ := Finmap.mem_iff.mp (Finmap.mem_keys.mp hname)
  refine (hdelivered.acked_iff name).mpr (.inr ⟨policy, hpolicy, ?_⟩)
  by_contra hopen
  rw [not_or, Bool.not_eq_true, Int.not_le] at hopen
  have hagain := hdelivered.remaining_iff.mpr ⟨name, policy, hpolicy, hopen⟩
  rw [hremaining] at hagain
  contradiction

def posts (object : Nat) (msg : QueueMsg) (policyByName : GoMap SubPolicy)
    (order : GoMap.Order SubPolicy) (ok : GoString → Bool) : List Sight :=
  (order.walk policyByName).map fun entry =>
    .posted object msg.msgId msg.payload entry.2 (ok entry.2.subName)

section Posts

variable (object : Nat) (msg : QueueMsg) (policyByName : GoMap SubPolicy)
  (order : GoMap.Order SubPolicy) (ok : GoString → Bool)

theorem attempts_posts : attempts (posts object msg policyByName order ok) =
    passAttempts msg.msgId policyByName order ok := by
  rw [attempts, posts, List.filterMap_map]
  exact congrFun List.filterMap_eq_map _

theorem acceptedIds_posts : acceptedIds (posts object msg policyByName order ok) = [] := by
  simp [acceptedIds, posts, Sight.acceptedId]

theorem retiredIds_posts : retiredIds (posts object msg policyByName order ok) = [] := by
  simp [retiredIds, posts, Sight.retiredId]

end Posts

namespace Traced

variable {b next : Broker} {seen : List Sight}

section Pass

variable {object : Nat} {msg : QueueMsg} {rest : List QueueMsg}
  {policyByName : GoMap SubPolicy} {order : GoMap.Order SubPolicy} {ok : GoString → Bool}
  {pass : QueueMsg.Pass} (htraced : Traced b seen) (hperm : b.custody.Perm (msg :: rest))
  (hnodup : (b.custody.map QueueMsg.msgId).Nodup) (hsending : Sending policyByName msg)
  (hdelivered : msg.Delivered policyByName ok pass)

include htraced hperm hnodup hsending hdelivered

theorem retain (hnext : next.custody.Perm (pass.msg :: rest)) :
    Traced next (seen ++ posts object msg policyByName order ok) := by
  have hmsg : msg ∈ b.custody := hperm.mem_iff.mpr List.mem_cons_self
  have htally := htraced.tallies msg hmsg
  have hothers : ∀ other ∈ rest, other.msgId ≠ msg.msgId := by
    have hids := (hperm.map QueueMsg.msgId).nodup_iff.mp hnodup
    rw [List.map_cons, List.nodup_cons] at hids
    exact fun other hother heq => hids.1 (heq ▸ List.mem_map_of_mem hother)
  have hattempts : attempts (seen ++ posts object msg policyByName order ok) =
      attempts seen ++ passAttempts msg.msgId policyByName order ok := by
    rw [attempts_append, attempts_posts]
  have haccepted : acceptedIds (seen ++ posts object msg policyByName order ok) =
      acceptedIds seen := by
    rw [acceptedIds_append, acceptedIds_posts, List.append_nil]
  have hretired : retiredIds (seen ++ posts object msg policyByName order ok) =
      retiredIds seen := by
    rw [retiredIds_append, retiredIds_posts, List.append_nil]
  refine ⟨?_, ?_, ?_, ?_, ?_⟩
  · have hids : (next.custody.map QueueMsg.msgId).Perm (b.custody.map QueueMsg.msgId) := by
      have hsame : (pass.msg :: rest).map QueueMsg.msgId = (msg :: rest).map QueueMsg.msgId := by
        rw [List.map_cons, List.map_cons, hdelivered.msgId_eq]
      exact (hnext.map _).trans (hsame ▸ (hperm.map _).symm)
    rw [haccepted, hretired]
    exact htraced.balance.trans (hids.symm.append_right _)
  · rw [hattempts, haccepted]
    intro attempt hmem
    rcases List.mem_append.mp hmem with hold | hnew
    · exact htraced.known attempt hold
    · rw [key_of_mem_passAttempts hnew]
      exact htraced.balance.mem_iff.mpr
        (List.mem_append_left _ (List.mem_map_of_mem hmsg))
  · rw [hattempts]
    intro other hother
    rcases List.mem_cons.mp (hnext.mem_iff.mp hother) with rfl | hrest
    · exact htally.delivered hsending order hdelivered
    · have hold := htraced.tallies other (hperm.mem_iff.mpr (List.mem_cons_of_mem _ hrest))
      refine hold.append_other fun attempt hmem => ?_
      rw [key_of_mem_passAttempts hmem]
      exact (hothers other hrest).symm
  · rw [hattempts]
    exact bounded_pass htally hsending order htraced.bounded
  · intro other subscribers hmem
    have hold : .retired other subscribers ∈ seen := by
      simpa [posts] using hmem
    obtain ⟨hall, hsettled⟩ := htraced.retired hold
    rw [hattempts]
    exact ⟨hall, fun name hname => (hsettled name hname).append _⟩

end Pass

theorem move (htraced : Traced b seen) (hsound : b.Sound)
    (hnodup : (b.custody.map QueueMsg.msgId).Nodup) {object : Nat} {q after : Queue}
    {move : Move} (hobject : b.objects[object]? = some q) (hmoved : Moved q move after) :
    Traced (b.setObject object after) (seen ++ q.sights object move) := by
  have hcustody := Broker.custody_perm hobject
  have hafter := Broker.custody_setObject_perm hobject after
  have hheld : ∀ {msg}, q.worker.hand = some msg →
      b.custody.Perm (msg :: (q.buf ++ b.elsewhere object)) := by
    intro msg hhand
    simpa [Queue.items, hhand] using hcustody
  have hsame : after.items.Perm q.items → q.sights object move = [] →
      Traced (b.setObject object after) (seen ++ q.sights object move) := by
    intro hitems hquiet
    rw [hquiet]
    exact htraced.quiet (Broker.custody_setObject_of_items hobject hitems) (by simp)
  cases hmoved with
  | idled hworker hbuf => exact hsame (by simp [Queue.items, hworker, WorkerPhase.hand]) rfl
  | popped hworker hbuf =>
      exact hsame (by simp [Queue.items, hworker, hbuf, WorkerPhase.hand]) rfl
  | @dropped msg hworker hnone =>
      have hsights : q.sights object .read = [.retired msg q.subPolicies] := by
        simp only [Queue.sights, hworker, hnone, if_true]
      rw [hsights]
      have hrest : (q.buf ++ b.elsewhere object).Perm _ := hafter.symm
      exact htraced.drop ((hheld (by rw [hworker]; rfl)).trans (hrest.cons msg))
        (QueueMsg.keys_subset_of_len_eq_zero hnone)
  | sent hworker hsome =>
      exact hsame (by simp [Queue.items, hworker, WorkerPhase.hand])
        (by simp only [Queue.sights, hworker, hsome, if_false])
  | @retained policyByName msg pass order reply hworker hdeliver hremaining =>
      have hsending := (hsound.queues_ok q (List.mem_of_getElem? hobject)).sending hworker
      have hdelivered := QueueMsg.delivered_of_deliver hsending.subscribers.keyed hdeliver
      have hsights : q.sights object (.deliver order reply) =
          posts object msg policyByName order fun name => sendMsg (reply name) := by
        obtain ⟨after, remaining⟩ := pass
        subst hremaining
        simp [Queue.sights, hworker, hdeliver, posts]
      rw [hsights]
      refine htraced.retain (hheld (by rw [hworker]; rfl)) hnodup hsending hdelivered ?_
      simpa [Queue.items, WorkerPhase.hand] using hafter
  | @finished policyByName msg pass order reply hworker hdeliver hremaining =>
      have hsending := (hsound.queues_ok q (List.mem_of_getElem? hobject)).sending hworker
      have hdelivered := QueueMsg.delivered_of_deliver hsending.subscribers.keyed hdeliver
      have hsights : q.sights object (.deliver order reply) =
          posts object msg policyByName order (fun name => sendMsg (reply name)) ++
            [.retired pass.msg policyByName] := by
        obtain ⟨after, remaining⟩ := pass
        subst hremaining
        simp [Queue.sights, hworker, hdeliver, posts]
      have hbetween := Broker.custody_setObject_perm hobject
        { q with worker := .requeueing pass.msg }
      have hretained : Traced (b.setObject object { q with worker := .requeueing pass.msg })
          (seen ++ posts object msg policyByName order fun name => sendMsg (reply name)) := by
        refine htraced.retain (hheld (by rw [hworker]; rfl)) hnodup hsending hdelivered ?_
        simpa [Queue.items, WorkerPhase.hand] using hbetween
      rw [hsights, ← List.append_assoc]
      refine hretained.drop (hbetween.trans ?_) (hdelivered.keys_subset hremaining)
      exact .trans (by simp [Queue.items, WorkerPhase.hand]) (hafter.symm.cons pass.msg)
  | requeued hworker =>
      refine hsame ?_ rfl
      simp only [Queue.items, Queue.add, hworker, WorkerPhase.hand, Option.toList_some,
        Option.toList_none, List.nil_append]
      exact List.perm_append_singleton _ _
  | woken hworker => exact hsame (by simp [Queue.items, hworker, WorkerPhase.hand]) rfl
  | exited hworker => exact hsame (by simp [Queue.items, hworker, WorkerPhase.hand]) rfl

theorem step (htraced : Traced b seen) (hsound : b.Sound) {event : BrokerEvent}
    (hnodup : (acceptedIds (seen ++ b.sights event)).Nodup)
    (hstep : b.step event = some next) : Traced next (seen ++ b.sights event) := by
  rw [acceptedIds_append] at hnodup
  have hids : (b.custody.map QueueMsg.msgId).Nodup :=
    (htraced.balance.nodup_iff.mp hnodup.of_append_left).of_append_left
  have hsilent : ∀ {after : Broker}, after.custody.Perm b.custody → b.sights event = [] →
      Traced after (seen ++ b.sights event) := by
    intro after hperm hquiet
    rw [hquiet]
    exact htraced.quiet hperm (by simp)
  cases stepped_of_step hstep with
  | refused hquiet => exact hsilent (.refl _) hquiet
  | registered habsent hroom =>
      refine hsilent (.of_eq ?_) rfl
      simp [Broker.custody, newQueue, Queue.items, WorkerPhase.hand]
  | @unregistered name object q hfound hobject hopen =>
      have hitems : Queue.items { q with isClosed := true } = q.items := rfl
      exact hsilent (Broker.custody_setObject_of_items hobject (.of_eq hitems)) rfl
  | closedTwice | crashed => exact absurd (hsound.step hstep).calm (by simp)
  | @published name body uuid object q hfound hobject =>
      have hsights : b.sights (.request (.enqueue name (some body) uuid)) =
          [.accepted object (newQueueMsg name body uuid).msgId body] := by
        rw [Broker.sights, getQueue_of_lookup hfound hobject]
      have hitems : (b.setObject object (q.add (newQueueMsg name body uuid))).custody.Perm
          (newQueueMsg name body uuid :: b.custody) := by
        refine (Broker.custody_setObject_perm hobject _).trans ?_
        refine .trans ?_ ((Broker.custody_perm hobject).symm.cons _)
        simp only [Queue.items, Queue.add]
        rw [← List.append_assoc, List.append_assoc _ [_]]
        exact List.perm_middle
      rw [hsights] at hnodup ⊢
      refine htraced.publish hitems rfl rfl rfl fun hmem => ?_
      exact List.disjoint_of_nodup_append hnodup hmem List.mem_cons_self
  | @subscribed request name object q metadata hfound hobject hvalid hsights =>
      rw [hsights]
      refine htraced.quiet (Broker.custody_setObject_of_items hobject ?_) fun sight hmem => ?_
      · exact .refl _
      · exact ⟨_, _, List.mem_singleton.mp hmem⟩
  | unsubscribed hfound hobject =>
      exact hsilent (Broker.custody_setObject_of_items hobject (.refl _)) rfl
  | worked hobject hmoved =>
      rw [Broker.sights, hobject]
      exact htraced.move hsound hids hobject hmoved

end Traced

/-- The account is in order as long as no message id has been used twice. -/
def Accounted (b : Broker) (seen : List Sight) : Prop :=
  b.Sound ∧ ((acceptedIds seen).Nodup → Traced b seen)

theorem Accounted.step {b next : Broker} {seen : List Sight} {event : BrokerEvent}
    (haccounted : Accounted b seen) (hstep : b.step event = some next) :
    Accounted next (seen ++ b.sights event) := by
  refine ⟨haccounted.1.step hstep, fun hnodup => ?_⟩
  have hbefore : (acceptedIds seen).Nodup := by
    rw [acceptedIds_append] at hnodup
    exact hnodup.of_append_left
  exact (haccounted.2 hbefore).step haccounted.1 hnodup hstep

theorem accounted_of_exec {events : List BrokerEvent} {b : Broker}
    (hexec : exec Broker.step {} events = some b) :
    Accounted b (trace Broker.step Broker.sights {} events) :=
  exec_traces (P := Accounted) (fun hstate hnext => hstate.step hnext)
    ⟨Broker.Sound.initial, fun _ => Traced.initial⟩ hexec

/-- What was accepted is held, abandoned or retired, each once.  An abandoned message went
with its queue: it is closed and under no name, and its worker has returned.  A retired one
was settled with every subscriber that its last pass had found, and with everybody else it
counts as acked. -/
theorem accepted_held_abandoned_or_retired {events : List BrokerEvent} {b : Broker}
    (hexec : exec Broker.step {} events = some b)
    (hfresh : (acceptedIds (trace Broker.step Broker.sights {} events)).Nodup) :
    let seen := trace Broker.step Broker.sights {} events
    (acceptedIds seen).Perm
        ((b.held ++ b.abandoned).map QueueMsg.msgId ++ retiredIds seen) ∧
      (∀ msg ∈ b.abandoned, ∃ object q, b.objects[object]? = some q ∧ msg ∈ q.buf ∧
        q.worker = .returned ∧ q.isClosed = true ∧
        ∀ name, b.queues.lookup name ≠ some object) ∧
      ∀ msg subscribers, .retired msg subscribers ∈ seen →
        subscribers.keys ⊆ msg.ackedSubs ∧
          ∀ name ∈ msg.ackedSubs, Settled (attempts seen) (msg.msgId, name) := by
  obtain ⟨hsound, htraced⟩ := accounted_of_exec hexec
  refine ⟨?_, fun msg => hsound.of_mem_abandoned,
    fun msg subscribers hmem => (htraced hfresh).retired hmem⟩
  exact (htraced hfresh).balance.trans ((b.custody_perm_held.map _).append_right _)

/-- Whatever happens to the policies in the meantime, a message reaches for a subscriber
at most a hundred times, and not again once it got through. -/
theorem attempts_bounded {events : List BrokerEvent} {b : Broker}
    (hexec : exec Broker.step {} events = some b)
    (hfresh : (acceptedIds (trace Broker.step Broker.sights {} events)).Nodup)
    (msgId subName : GoString) :
    let results := outcomes (msgId, subName)
      (attempts (trace Broker.step Broker.sights {} events))
    results.length ≤ 100 ∧ ∀ ok ∈ results.dropLast, ok = false := by
  have hbounded := ((accounted_of_exec hexec).2 hfresh).bounded (msgId, subName)
  exact ⟨hbounded.length_le, hbounded.failed⟩

/-- A subscriber fails once, gets more retries, and then answers. -/
def secondTry : List BrokerEvent :=
  [.request (.queueCreation (lit "q")),
    .request (.subPolicyCreation (lit "q")
      (some (lit "\x7b\"SubName\":\"a\",\"SubURL\":\"u\",\"NumberOfRetries\":2\x7d"))),
    .request (.enqueue (lit "q") (some (lit "body")) (lit "1")),
    .work 0 .pop, .work 0 .read, .work 0 (.deliver .sorted fun _ => none),
    .request (.subPolicyUpdate (lit "q") (lit "a")
      (some (lit "\x7b\"SubURL\":\"v\",\"NumberOfRetries\":9\x7d"))),
    .work 0 .requeue, .work 0 .pop, .work 0 .read,
    .work 0 (.deliver .sorted fun _ => some 200)]

/-- A message is retired; the next one comes while the worker waits, and the queue is
deleted before the worker has seen it. -/
def abandonment : List BrokerEvent :=
  secondTry ++ [.work 0 .pop, .request (.enqueue (lit "q") (some (lit "late")) (lit "2")),
    .request (.queueDeletion (lit "q")), .work 0 .exit]

theorem accepted_held_abandoned_or_retired_in_abandonment :
    let seen := trace Broker.step Broker.sights {} abandonment
    ∃ b, exec Broker.step {} abandonment = some b ∧ (acceptedIds seen).Nodup ∧
      retiredIds seen = [lit "q/1"] ∧ b.held = [] ∧
      b.abandoned.map QueueMsg.msgId = [lit "q/2"] ∧
      (acceptedIds seen).Perm
        ((b.held ++ b.abandoned).map QueueMsg.msgId ++ retiredIds seen) ∧
      (∀ msg ∈ b.abandoned, ∃ object q, b.objects[object]? = some q ∧ msg ∈ q.buf ∧
        q.worker = .returned ∧ q.isClosed = true ∧
        ∀ name, b.queues.lookup name ≠ some object) ∧
      ∀ msg subscribers, .retired msg subscribers ∈ seen →
        subscribers.keys ⊆ msg.ackedSubs ∧
          ∀ name ∈ msg.ackedSubs, Settled (attempts seen) (msg.msgId, name) := by
  intro seen
  have hrun : (exec Broker.step {} abandonment).map (fun b =>
      (b.held, b.abandoned.map QueueMsg.msgId)) = some ([], [lit "q/2"]) := by
    decide +kernel
  obtain ⟨b, hexec, hresult⟩ := Option.map_eq_some_iff.mp hrun
  obtain ⟨hheld, habandoned⟩ := Prod.mk.inj hresult
  have hfresh : (acceptedIds (trace Broker.step Broker.sights {} abandonment)).Nodup := by
    decide +kernel
  exact ⟨b, hexec, hfresh, by decide +kernel, hheld, habandoned,
    accepted_held_abandoned_or_retired hexec hfresh⟩

theorem attempts_bounded_in_secondTry :
    let results := outcomes (lit "q/1", lit "a")
      (attempts (trace Broker.step Broker.sights {} secondTry))
    results = [false, true] ∧ results.length ≤ 100 ∧
      ∀ ok ∈ results.dropLast, ok = false := by
  obtain ⟨b, hexec⟩ : ∃ b, exec Broker.step {} secondTry = some b :=
    Option.isSome_iff_exists.mp (by decide +kernel)
  have hfresh : (acceptedIds (trace Broker.step Broker.sights {} secondTry)).Nodup := by
    decide +kernel
  exact ⟨by decide +kernel, attempts_bounded hexec hfresh (lit "q/1") (lit "a")⟩

end SimonMQ.Push
