import SimonMQ.Push.Registry

namespace SimonMQ.Push

open SimonMQ.Go

/-! Passes of `push-mq` beside those of `durable-mq`, for a message whose queue keeps its
subscribers. -/

/-- What the subscribers answer in a pass, and in which order the answers reach the two
workers. -/
structure PushInput where
  reply : GoString → Option Nat
  pushOrder : GoMap.Order SubPolicy
  durableOrder : GoMap.Order SubPolicy

namespace PushInput

def outcome (input : PushInput) (name : GoString) : Bool := sendMsg (input.reply name)

/-- The same answers for a worker of `durable-mq`. -/
def toPassInput (input : PushInput) : PassInput :=
  ⟨input.outcome, input.durableOrder, input.durableOrder⟩

/-- The same answers, in the order in which the worker of `push-mq` gets them. -/
def inPushOrder (input : PushInput) : PassInput :=
  ⟨input.outcome, input.pushOrder, input.durableOrder⟩

end PushInput

namespace QueueMsg

/-- `ProcessMsg`, with the subscribers that it reads. -/
def pass (msg : QueueMsg) (subPolicies : GoMap SubPolicy) (input : PushInput) :
    Except Panic (PassReport × QueueMsg) :=
  let policyByName := msg.policyByName subPolicies
  if policyByName.len = 0 then .ok (⟨policyByName, ∅, false⟩, msg)
  else do
    let pass ← msg.deliver policyByName input.pushOrder input.reply
    return (⟨policyByName, pass.msg.ackedSubs \ msg.ackedSubs, pass.anySubsRemaining⟩, pass.msg)

/-- The passes over a message, up to the one that does not add it again. -/
def passes (msg : QueueMsg) (subPolicies : GoMap SubPolicy) :
    List PushInput → Except Panic (List PassReport)
  | [] => .ok []
  | input :: inputs => do
      let (report, msg) ← msg.pass subPolicies input
      if report.requeued then return report :: (← msg.passes subPolicies inputs)
      else return [report]

variable {msg : QueueMsg} {subPolicies : GoMap SubPolicy} {dist : Dist.QueueMsg}

theorem pass_eq (halike : Alike (msg.toDurable subPolicies) dist) (input : PushInput) :
    ∃ after, msg.pass subPolicies input =
        .ok (((msg.toDurable subPolicies).pass input.inPushOrder).1, after) ∧
      after.toDurable subPolicies = ((msg.toDurable subPolicies).pass input.inPushOrder).2 := by
  have hpending : dist.pendingSubs = msg.policyByName subPolicies := halike.policyByName_eq.symm
  by_cases hnobody : (msg.policyByName subPolicies).len = 0
  · refine ⟨msg, ?_, ?_⟩
    · simp [pass, Durable.QueueMsg.pass, Durable.QueueMsg.processMsg, policyByName_toDurable,
        hnobody]
    · simp [Durable.QueueMsg.pass, Durable.QueueMsg.processMsg, policyByName_toDurable, hnobody]
  · have hkeyed : KeyedByName (msg.policyByName subPolicies) :=
      hpending ▸ Dist.QueueMsg.keyed_pendingSubs halike.keyed
    have hstored : (msg.toDurable subPolicies).policyByName.len ≠ 0 := hnobody
    have hresult := halike.durable_pass (hpending ▸ hnobody) input.inPushOrder
    simp only [Durable.QueueMsg.pass, Durable.QueueMsg.processMsg, if_neg hstored,
      Prod.mk.injEq, PassReport.mk.injEq] at hresult ⊢
    simp only [pass, if_neg hnobody,
      deliver_toDurable hkeyed msg subPolicies input.pushOrder input.reply]
    obtain ⟨⟨_, hacks, _⟩, hafter⟩ := hresult
    have hsame : (msg.toDurable subPolicies).answers input.inPushOrder.durableOrder
        input.inPushOrder.outcome =
          answers (msg.policyByName subPolicies) input.pushOrder input.reply := rfl
    rw [hsame] at hacks hafter ⊢
    rw [policyByName_toDurable] at hacks hafter ⊢
    generalize (answers (msg.policyByName subPolicies) input.pushOrder input.reply).foldl _ _ =
      durable at hacks hafter ⊢
    have hfinished : durable.msg.ackedSubs \ msg.ackedSubs = durable.acks.toFinset := by
      rw [hacks, hafter]
      apply Finset.union_sdiff_cancel_left
      rw [Finset.disjoint_right]
      intro name hmem
      have hname := (dist.count_sublist _ _).subset (List.mem_toFinset.mp hmem)
      rw [GoMap.mem_walk_names, Dist.QueueMsg.keys_pendingSubs, Finset.mem_sdiff] at hname
      exact halike.acked_eq ▸ hname.2
    refine ⟨(Pass.ofDurable durable).msg, ?_, ?_⟩
    · simp only [bind, Except.bind, pure, Except.pure, Pass.ofDurable, hfinished]
    · have hsnapshot : durable.msg.subPolicySnapshot = subPolicies := by
        rw [hafter]
        rfl
      rw [← hsnapshot]
      rfl

theorem passes_eq (halike : Alike (msg.toDurable subPolicies) dist) (inputs : List PushInput) :
    msg.passes subPolicies inputs =
      .ok ((msg.toDurable subPolicies).passes (inputs.map PushInput.inPushOrder)) := by
  induction inputs generalizing msg dist with
  | nil => rfl
  | cons input inputs ih =>
      obtain ⟨after, hpass, hafter⟩ := pass_eq halike input
      have hnext := (halike.pass input.inPushOrder).2
      rw [← hafter] at hnext
      simp only [passes, hpass, List.map_cons, Durable.QueueMsg.passes, bind, Except.bind, pure,
        Except.pure, ih hnext, hafter]
      split <;> rfl

end QueueMsg

theorem distPasses_eq (dist : Dist.QueueMsg) (inputs : List PushInput) :
    dist.passes (inputs.map PushInput.inPushOrder) =
      dist.passes (inputs.map PushInput.toPassInput) := by
  induction inputs generalizing dist with
  | nil => rfl
  | cons input inputs ih =>
      have hpass : dist.pass input.inPushOrder = dist.pass input.toPassInput := rfl
      simp only [List.map_cons, Dist.QueueMsg.passes, hpass, ih]

/-- While the subscribers of its queue stay the same, a message goes through the same
passes as in `durable-mq`: the same subscribers are attempted and settled, and it is
added again after the same passes, in whichever order the answers arrive. -/
theorem push_settles_like_durable (queueName payload uuid : GoString)
    {subPolicies : GoMap SubPolicy} (hkeyed : KeyedByName subPolicies)
    (inputs : List PushInput) :
    let msg := newQueueMsg queueName payload uuid
    msg.passes subPolicies inputs =
      .ok ((Durable.newQueueMsg msg.msgId payload subPolicies ∅).passes
        (inputs.map PushInput.toPassInput)) := by
  intro msg
  have halike : Alike (msg.toDurable subPolicies)
      ⟨msg.msgId, payload, subPolicies, ∅, ∅⟩ := ⟨rfl, rfl, rfl, hkeyed, by simp⟩
  have hsame : Durable.newQueueMsg msg.msgId payload subPolicies ∅ =
      msg.toDurable subPolicies := rfl
  rw [QueueMsg.passes_eq halike, hsame, halike.passes, halike.passes, distPasses_eq]

/-- One subscriber that answers in the second pass and one that never does. -/
theorem push_settles_two_like_durable :
    let subPolicies : GoMap SubPolicy := GoMap.ofList
      [(lit "a", ⟨lit "a", lit "u", 3⟩), (lit "b", ⟨lit "b", lit "v", 2⟩)]
    let order : GoMap.Order SubPolicy := .sorted
    let inputs : List PushInput :=
      [⟨fun _ => none, order, order⟩,
        ⟨fun name => if name = lit "a" then some 204 else some 500, order, order⟩]
    let msg := newQueueMsg (lit "q") (lit "p") (lit "1")
    KeyedByName subPolicies ∧
      msg.passes subPolicies inputs =
        .ok ((Durable.newQueueMsg msg.msgId (lit "p") subPolicies ∅).passes
          (inputs.map PushInput.toPassInput)) := by
  intro subPolicies order inputs msg
  have hkeyed : KeyedByName subPolicies := by decide +kernel
  exact ⟨hkeyed, push_settles_like_durable (lit "q") (lit "p") (lit "1") hkeyed inputs⟩

end SimonMQ.Push
