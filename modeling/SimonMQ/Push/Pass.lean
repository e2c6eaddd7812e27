import SimonMQ.Push.Queue
import SimonMQ.Settlement

namespace SimonMQ.Push.QueueMsg

open SimonMQ.Go
open SimonMQ.Durable (DeliveryResult)

/-! One pass over a message.  The loop over the results is that of `durable-mq` with
acks that cannot fail, on a message without a snapshot. -/

/-- What `push-mq` keeps of a pass of `durable-mq`. -/
def Pass.ofDurable (pass : Durable.QueueMsg.Pass) : Pass where
  msg :=
    { msgId := pass.msg.msgId
      payload := pass.msg.payload
      ackedSubs := pass.msg.ackedSubs
      retryMap := pass.msg.retryMap }
  anySubsRemaining := pass.anySubsRemaining

def toDurable (msg : QueueMsg) (subPolicies : GoMap SubPolicy) : Durable.QueueMsg where
  msgId := msg.msgId
  payload := msg.payload
  ackedSubs := msg.ackedSubs
  retryMap := msg.retryMap
  subPolicySnapshot := subPolicies

theorem policyByName_toDurable (msg : QueueMsg) (subPolicies : GoMap SubPolicy) :
    (msg.toDurable subPolicies).policyByName = msg.policyByName subPolicies := rfl

variable {policyByName : GoMap SubPolicy}

theorem Pass.take_ofDurable (pass : Durable.QueueMsg.Pass) {result : DeliveryResult}
    {policy : SubPolicy} (hpolicy : policyByName.lookup result.subName = some policy) :
    (Pass.ofDurable pass).take policyByName result =
      .ok (.ofDurable (pass.take policyByName (fun _ => true) result)) := by
  simp only [Pass.take, Durable.QueueMsg.Pass.take, Durable.QueueMsg.judge, hpolicy]
  cases result.success with
  | true => rfl
  | false =>
      simp only [Bool.false_eq_true, if_false, Option.getD_some, decide_eq_true_eq, if_true]
      split <;> split <;> first | rfl | contradiction

theorem Pass.foldlM_ofDurable (pass : Durable.QueueMsg.Pass) {results : List DeliveryResult}
    (hnames : ∀ result ∈ results, ∃ policy,
      policyByName.lookup result.subName = some policy) :
    results.foldlM (Pass.take policyByName) (Pass.ofDurable pass) =
      .ok (.ofDurable
        (results.foldl (Durable.QueueMsg.Pass.take policyByName fun _ => true) pass)) := by
  induction results generalizing pass with
  | nil => rfl
  | cons result results ih =>
      obtain ⟨policy, hpolicy⟩ := hnames result List.mem_cons_self
      rw [List.foldlM_cons, Pass.take_ofDurable pass hpolicy]
      exact ih _ fun later hlater => hnames later (List.mem_cons_of_mem _ hlater)

theorem answers_eq (hkeyed : KeyedByName policyByName) (order : GoMap.Order SubPolicy)
    (reply : GoString → Option Nat) :
    answers policyByName order reply =
      ((order.walk policyByName).map Prod.fst).map fun name =>
        ⟨name, sendMsg (reply name)⟩ :=
  Durable.walk_subNames hkeyed order fun name =>
    (⟨name, sendMsg (reply name)⟩ : DeliveryResult)

theorem deliver_toDurable (hkeyed : KeyedByName policyByName) (msg : QueueMsg)
    (subPolicies : GoMap SubPolicy) (order : GoMap.Order SubPolicy)
    (reply : GoString → Option Nat) :
    msg.deliver policyByName order reply =
      .ok (.ofDurable ((answers policyByName order reply).foldl
        (Durable.QueueMsg.Pass.take policyByName fun _ => true)
        { msg := msg.toDurable subPolicies })) := by
  apply Pass.foldlM_ofDurable { msg := msg.toDurable subPolicies }
  intro result hmem
  rw [answers_eq hkeyed, List.mem_map] at hmem
  obtain ⟨name, hname, rfl⟩ := hmem
  rw [GoMap.mem_walk_names, Finmap.mem_keys, Finmap.mem_iff] at hname
  exact hname

def failures (msg : QueueMsg) (name : GoString) : Nat :=
  (msg.retryMap.lookup name).getD 0

/-- What a pass does to a message, one subscriber at a time. -/
structure Delivered (msg : QueueMsg) (policyByName : GoMap SubPolicy) (ok : GoString → Bool)
    (pass : Pass) : Prop where
  msgId_eq : pass.msg.msgId = msg.msgId
  payload_eq : pass.msg.payload = msg.payload
  acked_iff : ∀ name, name ∈ pass.msg.ackedSubs ↔ name ∈ msg.ackedSubs ∨
    ∃ policy, policyByName.lookup name = some policy ∧
      (ok name = true ∨ policy.numberOfRetries.toInt ≤ (msg.failures name + 1 : Nat))
  failures_eq : ∀ name, pass.msg.failures name =
    if name ∈ policyByName ∧ ok name = false then msg.failures name + 1 else msg.failures name
  remaining_iff : pass.anySubsRemaining = true ↔
    ∃ name policy, policyByName.lookup name = some policy ∧ ok name = false ∧
      (msg.failures name + 1 : Nat) < policy.numberOfRetries.toInt

/-! The tally of the two stored brokers counts for this one, too. -/

section Counting

variable {names : List GoString} (ok : GoString → Bool)

private theorem nodup_resultNames (hnodup : names.Nodup) :
    ((names.map fun name => (⟨name, ok name⟩ : Dist.DeliveryResult)).map
      Dist.DeliveryResult.subName).Nodup := by
  rw [List.map_map]
  simpa [Function.comp_def] using hnodup

private theorem mem_results {name : GoString} {success : Bool} :
    (⟨name, success⟩ : Dist.DeliveryResult) ∈ names.map (fun name => ⟨name, ok name⟩) ↔
      name ∈ names ∧ ok name = success := by
  simp only [List.mem_map, Dist.DeliveryResult.mk.injEq]
  constructor
  · rintro ⟨other, hother, rfl, hok⟩
    exact ⟨hother, hok⟩
  · rintro ⟨hname, hok⟩
    exact ⟨name, hname, rfl, hok⟩

private theorem settles_iff (msg : QueueMsg) {name : GoString} {policy : SubPolicy}
    (hpolicy : policyByName.lookup name = some policy) :
    Dist.QueueMsg.settles policyByName msg.retryMap ⟨name, ok name⟩ = true ↔
      ok name = true ∨ policy.numberOfRetries.toInt ≤ (msg.failures name + 1 : Nat) := by
  simp [Dist.QueueMsg.settles, hpolicy, failures]

theorem delivered_foldl (msg : QueueMsg) (subPolicies : GoMap SubPolicy)
    (hnodup : names.Nodup)
    (hnames : ∀ name, name ∈ names ↔ ∃ policy, policyByName.lookup name = some policy) :
    msg.Delivered policyByName ok (.ofDurable
      ((names.map fun name => ⟨name, ok name⟩).foldl
        (Durable.QueueMsg.Pass.take policyByName fun _ => true)
        { msg := msg.toDurable subPolicies })) := by
  have hstart : Durable.QueueMsg.Pass.Tracks { msg := msg.toDurable subPolicies }
      (msg.toDurable subPolicies) (msg.retryMap, []) 0 :=
    ⟨by simp [toDurable], rfl, Nat.le_refl 0, rfl⟩
  have htracks := hstart.foldl policyByName names ok
  have hresults := nodup_resultNames ok hnodup
  have hfinished := Dist.QueueMsg.foldl_tally_snd policyByName hresults (msg.retryMap, [])
  have hcounted := Dist.QueueMsg.lookup_foldl_tally policyByName hresults (msg.retryMap, [])
  generalize (names.map fun name => (⟨name, ok name⟩ : Dist.DeliveryResult)).foldl
    (Dist.QueueMsg.tally policyByName) (msg.retryMap, []) = counted
    at htracks hfinished hcounted
  generalize List.foldl (Durable.QueueMsg.Pass.take policyByName fun _ => true) _ _ = pass
    at htracks ⊢
  rw [List.nil_append] at hfinished
  refine ⟨?_, ?_, ?_, ?_, ?_⟩
  · simp only [Pass.ofDurable, htracks.msg_eq, toDurable]
  · simp only [Pass.ofDurable, htracks.msg_eq, toDurable]
  · intro name
    simp only [Pass.ofDurable, htracks.msg_eq, toDurable, Finset.mem_union, List.mem_toFinset,
      hfinished, List.mem_map, List.mem_filter]
    apply or_congr_right
    constructor
    · rintro ⟨_, ⟨⟨other, hother, rfl⟩, hsettles⟩, rfl⟩
      obtain ⟨policy, hpolicy⟩ := (hnames other).mp hother
      exact ⟨policy, hpolicy, (settles_iff ok msg hpolicy).mp hsettles⟩
    · rintro ⟨policy, hpolicy, hsettled⟩
      have hname := (hnames name).mpr ⟨policy, hpolicy⟩
      exact ⟨_, ⟨⟨name, hname, rfl⟩, (settles_iff ok msg hpolicy).mpr hsettled⟩, rfl⟩
  · intro name
    have hfailed : (⟨name, false⟩ : Dist.DeliveryResult) ∈
        names.map (fun name => ⟨name, ok name⟩) ↔
          name ∈ policyByName ∧ ok name = false := by
      rw [mem_results, hnames, Finmap.mem_iff]
    simp only [failures, Pass.ofDurable, htracks.msg_eq, hcounted, hfailed]
    split_ifs <;> rfl
  · have hlength : names.length =
        (names.map fun name => (⟨name, ok name⟩ : Dist.DeliveryResult)).length := by
      rw [List.length_map]
    simp only [Pass.ofDurable, htracks.remaining, hfinished, Nat.zero_add,
      decide_eq_true_eq]
    rw [List.length_map, hlength, List.length_filter_lt_length_iff_exists]
    constructor
    · rintro ⟨_, hmem, hopen⟩
      obtain ⟨name, hname, rfl⟩ := List.mem_map.mp hmem
      obtain ⟨policy, hpolicy⟩ := (hnames name).mp hname
      rw [settles_iff ok msg hpolicy, not_or, Bool.not_eq_true, Int.not_le] at hopen
      exact ⟨name, policy, hpolicy, hopen⟩
    · rintro ⟨name, policy, hpolicy, hopen⟩
      have hname := (hnames name).mpr ⟨policy, hpolicy⟩
      refine ⟨_, List.mem_map.mpr ⟨name, hname, rfl⟩, ?_⟩
      rwa [settles_iff ok msg hpolicy, not_or, Bool.not_eq_true, Int.not_le]

end Counting

/-- A pass settles who answers and who runs out of retries, counts who fails, and goes
on as long as somebody who failed has retries left. -/
theorem deliver_spec (hkeyed : KeyedByName policyByName) (msg : QueueMsg)
    (order : GoMap.Order SubPolicy) (reply : GoString → Option Nat) :
    ∃ pass, msg.deliver policyByName order reply = .ok pass ∧
      msg.Delivered policyByName (fun name => sendMsg (reply name)) pass := by
  refine ⟨_, deliver_toDurable hkeyed msg ∅ order reply, ?_⟩
  rw [answers_eq hkeyed]
  apply delivered_foldl _ msg ∅ (order.enumerates policyByName).1
  intro name
  rw [GoMap.mem_walk_names, Finmap.mem_keys, Finmap.mem_iff]

theorem delivered_of_deliver (hkeyed : KeyedByName policyByName) {msg : QueueMsg}
    {order : GoMap.Order SubPolicy} {reply : GoString → Option Nat} {pass : Pass}
    (hdeliver : msg.deliver policyByName order reply = .ok pass) :
    msg.Delivered policyByName (fun name => sendMsg (reply name)) pass := by
  obtain ⟨_, hpass, hdelivered⟩ := deliver_spec hkeyed msg order reply
  cases hdeliver.symm.trans hpass
  exact hdelivered

end SimonMQ.Push.QueueMsg
