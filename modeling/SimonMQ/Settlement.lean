import SimonMQ.Dist.Delivery
import SimonMQ.Durable.Ledger
import SimonMQ.Durable.Pass

namespace SimonMQ

open SimonMQ.Go

/-! The workers of `durable-mq` and `dist-mq` side by side.  They run the same
message pass after pass until neither has anybody left to reach. -/

structure PassReport where
  attempted : GoMap SubPolicy
  acked : Finset GoString
  requeued : Bool

/-- What the subscribers answer in a pass, and in which order the answers reach the
two workers. -/
structure PassInput where
  outcome : GoString → Bool
  durableOrder : GoMap.Order SubPolicy
  distOrder : GoMap.Order SubPolicy

namespace Durable.QueueMsg

/-- A pass in which every ack is logged. -/
def pass (msg : QueueMsg) (input : PassInput) : PassReport × QueueMsg :=
  let pass := msg.processMsg (fun _ => true) (msg.answers input.durableOrder input.outcome)
  (⟨msg.policyByName, pass.acks.toFinset, pass.anySubsRemaining⟩, pass.msg)

/-- The passes over a message, up to the one that does not add it again. -/
def passes (msg : QueueMsg) : List PassInput → List PassReport
  | [] => []
  | input :: inputs =>
      let (report, msg) := msg.pass input
      if report.requeued then report :: msg.passes inputs else [report]

end Durable.QueueMsg

namespace Dist.QueueMsg

/-- How `Process` lets go of a message. -/
inductive Exit
  | done
  | requeued
  | dropped
  deriving DecidableEq, Repr

/-- `Process` on the results of a pass: the message afterwards, the names handed to
`onAck`, and what becomes of the message. -/
def process (msg : QueueMsg) (stopped ackOk : Bool) (results : List DeliveryResult) :
    QueueMsg × List GoString × Exit :=
  if msg.pendingSubs.len = 0 then (msg, [], .done)
  else
    let (msg, finished) := msg.collect results
    if stopped then (msg, [], .dropped)
    else if !finished.isEmpty && !ackOk then (msg, finished, .requeued)
    else
      let msg := msg.markAcked finished
      if msg.done then (msg, finished, .done) else (msg, finished, .requeued)

def answers (msg : QueueMsg) (order : GoMap.Order SubPolicy) (outcome : GoString → Bool) :
    List DeliveryResult :=
  (order.walk msg.pendingSubs).map fun entry =>
    ⟨entry.2.subName, outcome entry.2.subName⟩

/-- A pass of a worker that is not stopped, whose ack succeeds. -/
def pass (msg : QueueMsg) (input : PassInput) : PassReport × QueueMsg :=
  let (after, finished, exit) :=
    msg.process false true (msg.answers input.distOrder input.outcome)
  (⟨msg.pendingSubs, finished.toFinset, exit = .requeued⟩, after)

def passes (msg : QueueMsg) : List PassInput → List PassReport
  | [] => []
  | input :: inputs =>
      let (report, msg) := msg.pass input
      if report.requeued then report :: msg.passes inputs else [report]

def settles (pending : GoMap SubPolicy) (retryMap : GoMap Nat) (result : DeliveryResult) :
    Bool :=
  result.ok ||
    decide (((pending.lookup result.subName).getD .zero).numberOfRetries.toInt ≤
      ((retryMap.lookup result.subName).getD 0 + 1 : Nat))

theorem lookup_tally (pending : GoMap SubPolicy) (counted : GoMap Nat × List GoString)
    (result : DeliveryResult) (name : GoString) :
    (tally pending counted result).1.lookup name =
      if result = ⟨name, false⟩ then some ((counted.1.lookup name).getD 0 + 1)
      else counted.1.lookup name := by
  obtain ⟨subName, ok⟩ := result
  cases ok with
  | true => simp [tally]
  | false =>
      have hinsert : (tally pending counted ⟨subName, false⟩).1 =
          counted.1.insert subName ((counted.1.lookup subName).getD 0 + 1) := by
        simp only [tally, Bool.false_eq_true, if_false]
        split <;> rfl
      rw [hinsert, GoMap.lookup_insert_eq]
      by_cases hname : name = subName
      · subst hname
        simp
      · simp [hname, Ne.symm hname]

theorem tally_snd (pending : GoMap SubPolicy) (counted : GoMap Nat × List GoString)
    (result : DeliveryResult) :
    (tally pending counted result).2 =
      counted.2 ++ if settles pending counted.1 result then [result.subName] else [] := by
  unfold tally settles
  cases result.ok with
  | true => simp
  | false =>
      simp only [Bool.false_eq_true, if_false, Bool.false_or, decide_eq_true_eq]
      split <;> simp

theorem lookup_foldl_tally (pending : GoMap SubPolicy) {results : List DeliveryResult}
    (hnodup : (results.map DeliveryResult.subName).Nodup)
    (counted : GoMap Nat × List GoString) (name : GoString) :
    (results.foldl (tally pending) counted).1.lookup name =
      if ⟨name, false⟩ ∈ results then some ((counted.1.lookup name).getD 0 + 1)
      else counted.1.lookup name := by
  induction results generalizing counted with
  | nil => simp
  | cons result results ih =>
      rw [List.map_cons, List.nodup_cons] at hnodup
      rw [List.foldl_cons, ih hnodup.2, lookup_tally]
      by_cases hresult : result = ⟨name, false⟩
      · have hlater : (⟨name, false⟩ : DeliveryResult) ∉ results := by
          intro hmem
          rw [hresult] at hnodup
          exact hnodup.1 (List.mem_map_of_mem (f := DeliveryResult.subName) hmem)
        rw [if_pos hresult, if_neg hlater, if_pos (by simp [hresult])]
      · simp [hresult, Ne.symm hresult]

theorem foldl_tally_snd (pending : GoMap SubPolicy) {results : List DeliveryResult}
    (hnodup : (results.map DeliveryResult.subName).Nodup)
    (counted : GoMap Nat × List GoString) :
    (results.foldl (tally pending) counted).2 =
      counted.2 ++
        (results.filter (settles pending counted.1)).map DeliveryResult.subName := by
  induction results generalizing counted with
  | nil => simp
  | cons result results ih =>
      rw [List.map_cons, List.nodup_cons] at hnodup
      have hsame : results.filter (settles pending (tally pending counted result).1) =
          results.filter (settles pending counted.1) := by
        apply List.filter_congr
        intro later hlater
        have hother : result ≠ ⟨later.subName, false⟩ := by
          intro hresult
          have hname : later.subName = result.subName := by rw [hresult]
          exact hnodup.1 (hname ▸ List.mem_map_of_mem hlater)
        rw [settles, settles, lookup_tally, if_neg hother]
      rw [List.foldl_cons, ih hnodup.2, tally_snd, hsame, List.filter_cons, List.append_assoc]
      cases settles pending counted.1 result <;> simp

theorem keys_pendingSubs (msg : QueueMsg) :
    msg.pendingSubs.keys = msg.subList.keys \ msg.ackedSubs := by
  ext name
  rw [Finset.mem_sdiff, Finmap.mem_keys, Finmap.mem_keys, Finmap.mem_iff, Finmap.mem_iff]
  simp only [mem_pendingSubs]
  exact exists_and_right

end Dist.QueueMsg

namespace Durable.QueueMsg

/-- The pass over a message in step with the tally of the other worker. -/
structure Pass.Tracks (pass : Pass) (start : QueueMsg) (counted : GoMap Nat × List GoString)
    (seen : Nat) : Prop where
  msg_eq : pass.msg =
    { start with
      retryMap := counted.1
      ackedSubs := start.ackedSubs ∪ counted.2.toFinset }
  acks_eq : pass.acks = counted.2
  length_le : counted.2.length ≤ seen
  remaining : pass.anySubsRemaining = decide (counted.2.length < seen)

namespace Pass.Tracks

variable {pass : Pass} {start : QueueMsg} {counted : GoMap Nat × List GoString} {seen : Nat}

theorem settle (htracks : pass.Tracks start counted seen) (retryMap : GoMap Nat)
    (subName : GoString) :
    Pass.Tracks
      { pass with
        msg := markAcked { pass.msg with retryMap } subName
        acks := pass.acks ++ [subName] }
      start (retryMap, counted.2 ++ [subName]) (seen + 1) where
  msg_eq := by
    simp only [htracks.msg_eq, markAcked, List.toFinset_append, List.toFinset_cons,
      List.toFinset_nil, ← Finset.union_assoc, QueueMsg.mk.injEq, true_and, and_true]
    rw [insert_empty_eq, Finset.insert_eq, Finset.union_comm]
  acks_eq := by rw [htracks.acks_eq]
  length_le := by
    rw [List.length_append]
    exact Nat.succ_le_succ htracks.length_le
  remaining := by
    simp [htracks.remaining]

theorem leave (htracks : pass.Tracks start counted seen) (retryMap : GoMap Nat) :
    Pass.Tracks { pass with msg := { pass.msg with retryMap }, anySubsRemaining := true }
      start (retryMap, counted.2) (seen + 1) where
  msg_eq := by rw [htracks.msg_eq]
  acks_eq := htracks.acks_eq
  length_le := Nat.le_succ_of_le htracks.length_le
  remaining := (decide_eq_true (Nat.lt_succ_of_le htracks.length_le)).symm

theorem take (htracks : pass.Tracks start counted seen) (pending : GoMap SubPolicy)
    (subName : GoString) (success : Bool) :
    (pass.take pending (fun _ => true) ⟨subName, success⟩).Tracks start
      (Dist.QueueMsg.tally pending counted ⟨subName, success⟩) (seen + 1) := by
  have hretries : pass.msg.retryMap = counted.1 := by rw [htracks.msg_eq]
  simp only [Pass.take, judge, Dist.QueueMsg.tally, hretries]
  cases success with
  | true =>
      have hsettle := htracks.settle counted.1 subName
      rw [← hretries] at hsettle ⊢
      exact hsettle
  | false =>
      simp only [Bool.false_eq_true, if_false, decide_eq_true_eq, if_true]
      split
      · exact htracks.settle _ subName
      · exact htracks.leave _

theorem foldl (htracks : pass.Tracks start counted seen) (pending : GoMap SubPolicy)
    (names : List GoString) (outcome : GoString → Bool) :
    ((names.map fun name => ⟨name, outcome name⟩).foldl
        (Pass.take pending fun _ => true) pass).Tracks start
      ((names.map fun name => ⟨name, outcome name⟩).foldl
        (Dist.QueueMsg.tally pending) counted)
      (seen + names.length) := by
  induction names generalizing pass counted seen with
  | nil => exact htracks
  | cons name names ih =>
      have hrest := ih (htracks.take pending name (outcome name))
      rw [List.length_cons, Nat.add_comm names.length, ← Nat.add_assoc]
      exact hrest

end Pass.Tracks

end Durable.QueueMsg

/-! A snapshot keyed by its policies' names gives every pending name one result, and
then the order of the results does not matter. -/

theorem length_walk_names (policies : GoMap SubPolicy) (order : GoMap.Order SubPolicy) :
    ((order.walk policies).map Prod.fst).length = policies.len := by
  have hkeys : ((order.walk policies).map Prod.fst).toFinset = policies.keys := by
    ext name
    rw [List.mem_toFinset, GoMap.mem_walk_names]
  rw [GoMap.len, ← hkeys, List.toFinset_card_of_nodup (order.enumerates policies).1]

namespace Dist.QueueMsg

variable {msg : QueueMsg}

theorem keyed_pendingSubs (hkeyed : KeyedByName msg.subList) :
    KeyedByName msg.pendingSubs :=
  fun name policy hpolicy => hkeyed name policy (mem_pendingSubs.mp hpolicy).1

private theorem nodup_subNames {names : List GoString} (hnodup : names.Nodup)
    (outcome : GoString → Bool) :
    ((names.map fun name => (⟨name, outcome name⟩ : DeliveryResult)).map
      DeliveryResult.subName).Nodup := by
  rw [List.map_map]
  simpa [Function.comp_def] using hnodup

/-- The failures and the finished subscribers of a pass whose results arrive in this
order. -/
def count (msg : QueueMsg) (order : GoMap.Order SubPolicy) (outcome : GoString → Bool) :
    GoMap Nat × List GoString :=
  (((order.walk msg.pendingSubs).map Prod.fst).map fun name =>
    ⟨name, outcome name⟩).foldl (tally msg.pendingSubs) (msg.retryMap, [])

theorem count_perm (msg : QueueMsg) (first second : GoMap.Order SubPolicy)
    (outcome : GoString → Bool) :
    (msg.count first outcome).1 = (msg.count second outcome).1 ∧
      (msg.count first outcome).2.Perm (msg.count second outcome).2 := by
  have hfirst := (first.enumerates msg.pendingSubs).1
  have hsecond := (second.enumerates msg.pendingSubs).1
  have hnames : ((first.walk msg.pendingSubs).map Prod.fst).Perm
      ((second.walk msg.pendingSubs).map Prod.fst) := by
    rw [List.perm_ext_iff_of_nodup hfirst hsecond]
    intro name
    rw [GoMap.mem_walk_names, GoMap.mem_walk_names]
  have hresults := hnames.map fun name => (⟨name, outcome name⟩ : DeliveryResult)
  have hleft := nodup_subNames hfirst outcome
  have hright := nodup_subNames hsecond outcome
  constructor
  · apply Finmap.ext_lookup
    intro name
    rw [count, count, lookup_foldl_tally _ hleft, lookup_foldl_tally _ hright]
    simp only [hresults.mem_iff]
  · rw [count, count, foldl_tally_snd _ hleft, foldl_tally_snd _ hright]
    exact ((hresults.filter _).map _).append_left _

theorem count_sublist (msg : QueueMsg) (order : GoMap.Order SubPolicy)
    (outcome : GoString → Bool) :
    (msg.count order outcome).2.Sublist ((order.walk msg.pendingSubs).map Prod.fst) := by
  have hnodup := (order.enumerates msg.pendingSubs).1
  rw [count, foldl_tally_snd _ (nodup_subNames hnodup outcome), List.nil_append]
  generalize (order.walk msg.pendingSubs).map Prod.fst = names
  have hfilter : ((names.map fun name => (⟨name, outcome name⟩ : DeliveryResult)).filter
      (settles msg.pendingSubs msg.retryMap)).Sublist _ := List.filter_sublist
  simpa [Function.comp_def] using hfilter.map DeliveryResult.subName

theorem answers_eq (hkeyed : KeyedByName msg.subList)
    (order : GoMap.Order SubPolicy) (outcome : GoString → Bool) :
    msg.answers order outcome =
      ((order.walk msg.pendingSubs).map Prod.fst).map fun name => ⟨name, outcome name⟩ :=
  Durable.walk_subNames (keyed_pendingSubs hkeyed) order fun name =>
    (⟨name, outcome name⟩ : DeliveryResult)

theorem collect_answers (hkeyed : KeyedByName msg.subList)
    (order : GoMap.Order SubPolicy) (outcome : GoString → Bool) :
    msg.collect (msg.answers order outcome) =
      ({ msg with retryMap := (msg.count order outcome).1 },
        sortStrings (msg.count order outcome).2) := by
  rw [answers_eq hkeyed]
  rfl

theorem mem_count (msg : QueueMsg) (order : GoMap.Order SubPolicy)
    (outcome : GoString → Bool) (name : GoString) :
    name ∈ (msg.count order outcome).2 ↔
      name ∈ msg.pendingSubs.keys ∧
        settles msg.pendingSubs msg.retryMap ⟨name, outcome name⟩ := by
  have hnodup := nodup_subNames (order.enumerates msg.pendingSubs).1 outcome
  rw [count, foldl_tally_snd _ hnodup, List.nil_append, ← GoMap.mem_walk_names order]
  simp only [List.mem_map, List.mem_filter]
  constructor
  · rintro ⟨result, ⟨⟨other, hother, rfl⟩, hsettles⟩, rfl⟩
    exact ⟨hother, hsettles⟩
  · rintro ⟨hname, hsettles⟩
    exact ⟨_, ⟨⟨name, hname, rfl⟩, hsettles⟩, rfl⟩

theorem lookup_count (msg : QueueMsg) (order : GoMap.Order SubPolicy)
    (outcome : GoString → Bool) (name : GoString) :
    (msg.count order outcome).1.lookup name =
      if name ∈ msg.pendingSubs.keys ∧ outcome name = false then
        some ((msg.retryMap.lookup name).getD 0 + 1)
      else msg.retryMap.lookup name := by
  have hnodup := nodup_subNames (order.enumerates msg.pendingSubs).1 outcome
  have hfailed : (⟨name, false⟩ : DeliveryResult) ∈
      ((order.walk msg.pendingSubs).map Prod.fst).map (fun name => ⟨name, outcome name⟩) ↔
        name ∈ msg.pendingSubs.keys ∧ outcome name = false := by
    rw [← GoMap.mem_walk_names order, List.mem_map]
    constructor
    · rintro ⟨other, hother, heq⟩
      rw [DeliveryResult.mk.injEq] at heq
      obtain ⟨rfl, hoff⟩ := heq
      exact ⟨hother, hoff⟩
    · rintro ⟨hname, hoff⟩
      exact ⟨name, hname, by rw [hoff]⟩
  rw [count, lookup_foldl_tally _ hnodup]
  simp only [hfailed]

theorem len_subList_le_card_union (hacked : msg.ackedSubs ⊆ msg.subList.keys)
    {settled : Finset GoString} (hsettled : settled ⊆ msg.pendingSubs.keys) :
    msg.subList.len ≤ (msg.ackedSubs ∪ settled).card ↔
      msg.pendingSubs.len ≤ settled.card := by
  rw [keys_pendingSubs] at hsettled
  have hdisjoint : Disjoint msg.ackedSubs settled :=
    Finset.disjoint_right.mpr fun name hmem => (Finset.mem_sdiff.mp (hsettled hmem)).2
  have hsplit := Finset.card_sdiff_add_card_eq_card hacked
  rw [GoMap.len, GoMap.len, keys_pendingSubs, Finset.card_union_of_disjoint hdisjoint]
  omega

end Dist.QueueMsg

/-- The same message in the hands of both workers. -/
structure Alike (durable : Durable.QueueMsg) (dist : Dist.QueueMsg) : Prop where
  snapshot_eq : durable.subPolicySnapshot = dist.subList
  acked_eq : durable.ackedSubs = dist.ackedSubs
  retries_eq : durable.retryMap = dist.retryMap
  keyed : KeyedByName dist.subList
  acked_subset : dist.ackedSubs ⊆ dist.subList.keys

namespace Alike

variable {durable : Durable.QueueMsg} {dist : Dist.QueueMsg}

theorem policyByName_eq (halike : Alike durable dist) :
    durable.policyByName = dist.pendingSubs := by
  rw [Durable.QueueMsg.policyByName, halike.snapshot_eq, halike.acked_eq]
  rfl

theorem durable_pass (halike : Alike durable dist) (hsome : dist.pendingSubs.len ≠ 0)
    (input : PassInput) :
    durable.pass input =
      (⟨dist.pendingSubs, (dist.count input.durableOrder input.outcome).2.toFinset,
          decide ((dist.count input.durableOrder input.outcome).2.length <
            dist.pendingSubs.len)⟩,
        { durable with
          retryMap := (dist.count input.durableOrder input.outcome).1
          ackedSubs := durable.ackedSubs ∪
            (dist.count input.durableOrder input.outcome).2.toFinset }) := by
  have hpending := halike.policyByName_eq
  have hkeyed := Dist.QueueMsg.keyed_pendingSubs halike.keyed
  have hstart : Durable.QueueMsg.Pass.Tracks { msg := durable } durable
      (dist.retryMap, []) 0 :=
    ⟨by rw [← halike.retries_eq]; simp, rfl, Nat.le_refl 0, rfl⟩
  have htracks := hstart.foldl dist.pendingSubs
    ((input.durableOrder.walk dist.pendingSubs).map Prod.fst) input.outcome
  have hresults : durable.answers input.durableOrder input.outcome =
      ((input.durableOrder.walk dist.pendingSubs).map Prod.fst).map
        fun name => ⟨name, input.outcome name⟩ := by
    rw [Durable.QueueMsg.answers, hpending]
    exact Durable.walk_subNames hkeyed input.durableOrder fun name =>
      (⟨name, input.outcome name⟩ : Durable.DeliveryResult)
  rw [Nat.zero_add, length_walk_names] at htracks
  simp only [Durable.QueueMsg.pass, Durable.QueueMsg.processMsg, hpending, if_neg hsome,
    hresults, htracks.acks_eq, htracks.remaining, htracks.msg_eq]
  rfl

theorem dist_pass (halike : Alike durable dist) (hsome : dist.pendingSubs.len ≠ 0)
    (input : PassInput) :
    dist.pass input =
      (⟨dist.pendingSubs, (dist.count input.distOrder input.outcome).2.toFinset,
          decide ((dist.count input.distOrder input.outcome).2.length <
            dist.pendingSubs.len)⟩,
        { dist with
          retryMap := (dist.count input.distOrder input.outcome).1
          ackedSubs := dist.ackedSubs ∪
            (dist.count input.distOrder input.outcome).2.toFinset }) := by
  have hnodup := (input.distOrder.enumerates dist.pendingSubs).1
  have hsublist := dist.count_sublist input.distOrder input.outcome
  have hcollect := Dist.QueueMsg.collect_answers halike.keyed input.distOrder input.outcome
  generalize dist.count input.distOrder input.outcome = counted at hsublist hcollect ⊢
  have hfinished : (sortStrings counted.2).toFinset = counted.2.toFinset := by
    ext name
    rw [List.mem_toFinset, mem_sortStrings, List.mem_toFinset, Multiset.mem_coe]
  have hsettled : counted.2.toFinset ⊆ dist.pendingSubs.keys := fun name hmem =>
    (GoMap.mem_walk_names input.distOrder name).mp (hsublist.subset (List.mem_toFinset.mp hmem))
  -- The set sizes differ exactly while a pending subscriber is not finished.
  have hdone : dist.subList.len ≤ (dist.ackedSubs ∪ counted.2.toFinset).card ↔
      ¬ counted.2.length < dist.pendingSubs.len := by
    rw [Dist.QueueMsg.len_subList_le_card_union halike.acked_subset hsettled,
      List.toFinset_card_of_nodup (hnodup.sublist hsublist), Nat.not_lt]
  simp only [Dist.QueueMsg.pass, Dist.QueueMsg.process, if_neg hsome, hcollect,
    Dist.QueueMsg.markAcked, Dist.QueueMsg.done, hfinished, decide_eq_true_eq, hdone,
    Bool.false_eq_true, if_false, Bool.not_true, Bool.and_false]
  by_cases hleft : counted.2.length < dist.pendingSubs.len
  · simp [hleft, hfinished]
  · simp [hleft, hfinished]

theorem pass (halike : Alike durable dist) (input : PassInput) :
    (durable.pass input).1 = (dist.pass input).1 ∧
      Alike (durable.pass input).2 (dist.pass input).2 := by
  by_cases hnobody : dist.pendingSubs.len = 0
  · have hdurable : durable.pass input = (⟨dist.pendingSubs, ∅, false⟩, durable) := by
      simp [Durable.QueueMsg.pass, Durable.QueueMsg.processMsg, halike.policyByName_eq,
        hnobody]
    have hdist : dist.pass input = (⟨dist.pendingSubs, ∅, false⟩, dist) := by
      simp [Dist.QueueMsg.pass, Dist.QueueMsg.process, hnobody]
    rw [hdurable, hdist]
    exact ⟨rfl, halike⟩
  · obtain ⟨hretries, hfinished⟩ := dist.count_perm input.durableOrder input.distOrder
      input.outcome
    have hacks := List.toFinset_eq_of_perm _ _ hfinished
    rw [halike.durable_pass hnobody, halike.dist_pass hnobody]
    refine ⟨by rw [hacks, hfinished.length_eq], halike.snapshot_eq, ?_, hretries,
      halike.keyed, ?_⟩
    · change _ ∪ _ = _ ∪ _
      rw [halike.acked_eq, hacks]
    · apply Finset.union_subset halike.acked_subset
      intro name hmem
      have hname := (dist.count_sublist input.distOrder input.outcome).subset
        (List.mem_toFinset.mp hmem)
      rw [GoMap.mem_walk_names, Dist.QueueMsg.keys_pendingSubs] at hname
      exact (Finset.mem_sdiff.mp hname).1

theorem passes (halike : Alike durable dist) (inputs : List PassInput) :
    durable.passes inputs = dist.passes inputs := by
  induction inputs generalizing durable dist with
  | nil => rfl
  | cons input inputs ih =>
      obtain ⟨hreport, hnext⟩ := halike.pass input
      simp only [Durable.QueueMsg.passes, Dist.QueueMsg.passes, hreport, ih hnext]

end Alike

/-- Pass after pass, both workers attempt and ack the same subscribers of a message
and agree on whether it goes back to the queue. -/
theorem workers_settle_alike (msgId payload : GoString) {subList : GoMap SubPolicy}
    (hkeyed : KeyedByName subList) {ackedSubs : List GoString}
    (hacked : ackedSubs.toFinset ⊆ subList.keys) (inputs : List PassInput) :
    (Durable.newQueueMsg msgId payload subList ackedSubs.toFinset).passes inputs =
      (Dist.newQueueMsg ⟨msgId, payload, subList, ackedSubs⟩).passes inputs :=
  Alike.passes ⟨rfl, rfl, rfl, hkeyed, hacked⟩ inputs

/-- A message with one subscriber settled from the start, one with a negative budget
that never answers, and one that answers in the second pass. -/
theorem mixed_budgets_settle_alike :
    let subList : GoMap SubPolicy := GoMap.ofList
      [(lit "a", ⟨lit "a", lit "u", 3⟩), (lit "b", ⟨lit "b", lit "v", -1⟩),
        (lit "c", ⟨lit "c", lit "w", 2⟩)]
    let order : GoMap.Order SubPolicy := .sorted
    let inputs : List PassInput :=
      [⟨fun _ => false, order, order⟩, ⟨fun name => name = lit "c", order, order⟩]
    KeyedByName subList ∧ [lit "a"].toFinset ⊆ subList.keys ∧
      (Durable.newQueueMsg (lit "m") (lit "p") subList [lit "a"].toFinset).passes inputs =
        (Dist.newQueueMsg ⟨lit "m", lit "p", subList, [lit "a"]⟩).passes inputs := by
  intro subList order inputs
  have hkeyed : KeyedByName subList := by decide +kernel
  have hacked : [lit "a"].toFinset ⊆ subList.keys := by decide +kernel
  exact ⟨hkeyed, hacked, workers_settle_alike (lit "m") (lit "p") hkeyed hacked inputs⟩

end SimonMQ
