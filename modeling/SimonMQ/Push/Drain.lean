import Mathlib
import SimonMQ.Push.Registry

namespace SimonMQ.Push

open SimonMQ.Go
open SimonMQ.Transition

/-! A worker left to itself.  The subscribers of the queue stay as they are, so every
pass over a message brings each of them closer to its limit; only the first pass may
still go by subscribers that were read before. -/

namespace QueueMsg

def allowance (msg : QueueMsg) (subPolicies : GoMap SubPolicy) (name : GoString) : Nat :=
  ((subPolicies.lookup name).getD .zero).numberOfRetries.toInt.toNat - msg.failures name

def passesLeft (msg : QueueMsg) (subPolicies : GoMap SubPolicy) : Nat :=
  (msg.policyByName subPolicies).keys.sup (msg.allowance subPolicies)

/-- The same after the pass that now goes on. -/
def passesLeftAfter (msg : QueueMsg) (policyByName subPolicies : GoMap SubPolicy) : Nat :=
  (msg.policyByName subPolicies).keys.sup fun name =>
    msg.allowance subPolicies name - if name ∈ policyByName then 1 else 0

/-- Somebody can fail and have retries left. -/
def Retryable (msg : QueueMsg) (policyByName : GoMap SubPolicy) : Prop :=
  ∃ name policy, policyByName.lookup name = some policy ∧
    (msg.failures name + 1 : Nat) < policy.numberOfRetries.toInt

variable {msg : QueueMsg} {policyByName subPolicies : GoMap SubPolicy}

theorem allowance_le (hok : SubscribersOk subPolicies) (name : GoString) :
    msg.allowance subPolicies name ≤ 100 := by
  unfold allowance
  cases hpolicy : subPolicies.lookup name with
  | none => simp [SubPolicy.zero]
  | some policy =>
      have hretries := (hok name policy hpolicy).2.retries_le
      rw [Option.getD_some]
      omega

theorem passesLeft_le (hok : SubscribersOk subPolicies) (msg : QueueMsg) :
    msg.passesLeft subPolicies ≤ 100 :=
  Finset.sup_le fun name _ => allowance_le hok name

theorem passesLeftAfter_le (hok : SubscribersOk subPolicies) (msg : QueueMsg)
    (policyByName : GoMap SubPolicy) :
    msg.passesLeftAfter policyByName subPolicies ≤ 100 :=
  Finset.sup_le fun name _ => (Nat.sub_le _ _).trans (allowance_le hok name)

theorem passesLeftAfter_lt (hretry : msg.Retryable (msg.policyByName subPolicies)) :
    msg.passesLeftAfter (msg.policyByName subPolicies) subPolicies <
      msg.passesLeft subPolicies := by
  obtain ⟨name, policy, hpolicy, hroom⟩ := hretry
  have hmem : name ∈ (msg.policyByName subPolicies).keys :=
    Finmap.mem_keys.mpr (Finmap.mem_iff.mpr ⟨policy, hpolicy⟩)
  have hpos : 0 < msg.passesLeft subPolicies := by
    refine Nat.lt_of_lt_of_le ?_ (Finset.le_sup hmem)
    rw [allowance, (lookup_policyByName.mp hpolicy).1, Option.getD_some]
    omega
  refine (Finset.sup_lt_iff hpos).mpr fun other hother => ?_
  have hle : msg.allowance subPolicies other ≤ msg.passesLeft subPolicies :=
    Finset.le_sup hother
  rw [if_pos (Finmap.mem_keys.mp hother)]
  omega

theorem Delivered.passesLeft_le {ok : GoString → Bool} {pass : Pass}
    (hdelivered : msg.Delivered policyByName ok pass) (subPolicies : GoMap SubPolicy) :
    pass.msg.passesLeft subPolicies ≤ msg.passesLeftAfter policyByName subPolicies := by
  refine Finset.sup_le fun name hname => ?_
  obtain ⟨policy, hpolicy⟩ := Finmap.mem_iff.mp (Finmap.mem_keys.mp hname)
  obtain ⟨hsubscribed, hwaiting⟩ := lookup_policyByName.mp hpolicy
  rw [hdelivered.acked_iff, not_or] at hwaiting
  have hbefore : name ∈ (msg.policyByName subPolicies).keys := by
    rw [Finmap.mem_keys, Finmap.mem_iff]
    exact ⟨policy, lookup_policyByName.mpr ⟨hsubscribed, hwaiting.1⟩⟩
  refine le_trans ?_ (Finset.le_sup hbefore)
  rw [allowance, allowance, hdelivered.failures_eq]
  by_cases hsent : name ∈ policyByName
  · -- Reached and not settled, so it failed.
    have hfailed : ok name = false := by
      obtain ⟨current, hcurrent⟩ := Finmap.mem_iff.mp hsent
      rw [← Bool.not_eq_true]
      exact fun hok => hwaiting.2 ⟨current, hcurrent, .inl hok⟩
    rw [if_pos ⟨hsent, hfailed⟩, if_pos hsent]
    omega
  · rw [if_neg fun hboth => hsent hboth.1, if_neg hsent]
    omega

theorem Delivered.retryable {ok : GoString → Bool} {pass : Pass}
    (hdelivered : msg.Delivered policyByName ok pass)
    (hremaining : pass.anySubsRemaining = true) : msg.Retryable policyByName := by
  obtain ⟨name, policy, hpolicy, _, hroom⟩ := hdelivered.remaining_iff.mp hremaining
  exact ⟨name, policy, hpolicy, hroom⟩

end QueueMsg

/-! The rank of a queue: how many steps its worker can still take. -/

def QueueMsg.cost (msg : QueueMsg) (subPolicies : GoMap SubPolicy) : Nat :=
  6 * msg.passesLeft subPolicies + 3

open Classical in
noncomputable def WorkerPhase.cost (subPolicies : GoMap SubPolicy) : WorkerPhase → Nat
  | .returned => 0
  | .waiting => 1
  | .popping => 2
  | .reading msg => msg.cost subPolicies + 1
  | .sending policyByName msg =>
      if msg.Retryable policyByName then
        6 * msg.passesLeftAfter policyByName subPolicies + 9
      else 3
  | .requeueing msg => msg.cost subPolicies + 5

noncomputable def Queue.rank (q : Queue) : Nat :=
  (q.buf.map fun msg => msg.cost q.subPolicies).sum + q.worker.cost q.subPolicies +
    if q.hasWork then 2 else 0

namespace Queue

variable {q next : Queue} {move : Move}

theorem rank_moved (hok : q.Ok) (hmoved : Moved q move next) : next.rank < q.rank := by
  cases hmoved with
  | idled hworker hbuf => simp [rank, hworker, WorkerPhase.cost]
  | popped hworker hbuf =>
      simp only [rank, hworker, hbuf, WorkerPhase.cost, List.map_cons, List.sum_cons]
      omega
  | dropped hworker hnone =>
      simp only [rank, hworker, WorkerPhase.cost, QueueMsg.cost]
      omega
  | @sent msg hworker hsome =>
      simp only [rank, hworker, WorkerPhase.cost, QueueMsg.cost]
      split_ifs with hretry
      all_goals try have := QueueMsg.passesLeftAfter_lt hretry
      all_goals omega
  | retained hworker hdeliver hremaining =>
      have hdelivered := QueueMsg.delivered_of_deliver
        (hok.sending hworker).subscribers.keyed hdeliver
      have hbound := hdelivered.passesLeft_le q.subPolicies
      simp only [rank, hworker, WorkerPhase.cost, QueueMsg.cost,
        if_pos (hdelivered.retryable hremaining)]
      omega
  | finished hworker hdeliver hremaining =>
      simp only [rank, hworker, WorkerPhase.cost]
      split_ifs <;> omega
  | requeued hworker =>
      simp only [rank, add, hworker, WorkerPhase.cost, List.map_append, List.sum_append,
        List.map_cons, List.map_nil, List.sum_cons, List.sum_nil, if_true]
      omega
  | woken hworker htoken => simp [rank, hworker, htoken, WorkerPhase.cost]
  | exited hworker hclosed => simp [rank, hworker, WorkerPhase.cost]

theorem cost_le (hok : SubscribersOk q.subPolicies) :
    q.worker.cost q.subPolicies ≤ 609 * q.worker.hand.toList.length + 2 := by
  cases q.worker with
  | returned | waiting | popping => simp [WorkerPhase.cost]
  | reading msg | requeueing msg =>
      have := QueueMsg.passesLeft_le hok msg
      simp only [WorkerPhase.cost, QueueMsg.cost, WorkerPhase.hand, Option.toList_some,
        List.length_singleton]
      omega
  | sending policyByName msg =>
      have := QueueMsg.passesLeftAfter_le hok msg policyByName
      simp only [WorkerPhase.cost, WorkerPhase.hand, Option.toList_some, List.length_singleton]
      split_ifs <;> omega

theorem rank_le (hok : SubscribersOk q.subPolicies) : q.rank ≤ 609 * q.items.length + 4 := by
  have hphase := cost_le hok
  have hbuf : (q.buf.map fun msg => msg.cost q.subPolicies).sum ≤ q.buf.length * 603 := by
    have hle := List.sum_le_card_nsmul (q.buf.map fun msg => msg.cost q.subPolicies) 603
      (by
        intro cost hmem
        obtain ⟨msg, _, rfl⟩ := List.mem_map.mp hmem
        have := QueueMsg.passesLeft_le hok msg
        simp only [QueueMsg.cost]
        omega)
    simpa using hle
  rw [rank, items, List.length_append]
  split_ifs <;> omega

theorem idle_of_stuck (hok : q.Ok) (hstuck : ∀ move, q.move move = none) :
    (q.worker = .waiting ∧ q.items = []) ∨ (q.worker = .returned ∧ q.isClosed = true) := by
  cases hworker : q.worker with
  | returned => exact .inr ⟨rfl, hok.returned hworker⟩
  | waiting =>
      left
      have htoken : q.hasWork = false := by
        cases hwork : q.hasWork with
        | false => rfl
        | true =>
            have := hstuck .wake
            simp [move, hworker, hwork] at this
      have hbuf : q.buf = [] := by
        by_contra hsome
        rw [hok.token hworker hsome] at htoken
        contradiction
      exact ⟨rfl, by simp [items, hworker, hbuf, WorkerPhase.hand]⟩
  | popping =>
      have := hstuck .pop
      cases hbuf : q.buf <;> simp [move, hworker, hbuf] at this
  | reading msg =>
      have := hstuck .read
      simp only [move, hworker] at this
      split_ifs at this
  | sending policyByName msg =>
      have := hstuck (.deliver .sorted fun _ => none)
      simp [move, hworker] at this
  | requeueing msg =>
      have := hstuck .requeue
      simp [move, hworker] at this

end Queue

namespace Broker

variable {b next : Broker} {object : Nat} {q : Queue} {move : Move}

theorem moved_of_work (hsound : b.Sound) (hobject : b.objects[object]? = some q)
    (hstep : b.step (.work object move) = some next) :
    ∃ after, Moved q move after ∧ next = b.setObject object after := by
  cases stepped_of_step hstep with
  | worked hfound hmoved =>
      cases hobject.symm.trans hfound
      exact ⟨_, hmoved, rfl⟩
  | crashed => exact absurd (hsound.step hstep).calm (by simp)

theorem move_of_work (hsound : b.Sound) (hobject : b.objects[object]? = some q)
    (hstuck : b.step (.work object move) = none) : q.move move = none := by
  simp only [step, hsound.calm, hobject] at hstuck
  split at hstuck
  next hmove => exact hmove
  next => contradiction
  next => contradiction

noncomputable def rank (b : Broker) (object : Nat) : Nat :=
  (b.objects[object]?.map Queue.rank).getD 0

def Serves (object : Nat) (b : Broker) : Prop :=
  b.Sound ∧ ∃ q, b.objects[object]? = some q

theorem Serves.work (hserves : b.Serves object)
    (hstep : b.step (.work object move) = some next) :
    next.Serves object ∧ next.rank object < b.rank object := by
  obtain ⟨hsound, q, hobject⟩ := hserves
  obtain ⟨after, hmoved, rfl⟩ := moved_of_work hsound hobject hstep
  have hlt : object < b.objects.length := (List.getElem?_eq_some_iff.mp hobject).1
  have hplace : (b.setObject object after).objects[object]? = some after :=
    List.getElem?_set_self hlt
  refine ⟨⟨hsound.step hstep, after, hplace⟩, ?_⟩
  rw [rank, rank, hplace, hobject]
  exact Queue.rank_moved (hsound.queues_ok q (List.mem_of_getElem? hobject)) hmoved

end Broker

/-- A worker that is left to itself comes to rest after a bounded number of steps,
whatever the subscribers answer, and then has no message left or has returned from a
deleted queue. -/
theorem worker_comes_to_rest {events : List BrokerEvent} {b final : Broker} {object : Nat}
    {q : Queue} {moves : List Move} (hexec : exec Broker.step {} events = some b)
    (hobject : b.objects[object]? = some q)
    (hmoves : exec Broker.step b (moves.map (.work object)) = some final) :
    moves.length ≤ 609 * q.items.length + 4 ∧
      ((∀ move, final.step (.work object move) = none) →
        ∃ after, final.objects[object]? = some after ∧
          ((after.worker = .waiting ∧ after.items = []) ∨
            (after.worker = .returned ∧ after.isClosed = true))) := by
  have hsound := Broker.Sound.initial.exec hexec
  have hallowed : ∀ event ∈ moves.map (BrokerEvent.work object),
      ∃ move, event = .work object move := by
    intro event hmem
    obtain ⟨move, _, rfl⟩ := List.mem_map.mp hmem
    exact ⟨move, rfl⟩
  have hserves : b.Serves object := ⟨hsound, q, hobject⟩
  constructor
  · have hlength := length_le_of_rank (fun b => b.rank object)
      (fun {state event next} (hstate : state.Serves object) hevent hnext => by
        obtain ⟨move, rfl⟩ := hevent
        exact hstate.work hnext) hserves hallowed hmoves
    rw [List.length_map] at hlength
    refine hlength.trans ?_
    simp only [Broker.rank, hobject, Option.map_some, Option.getD_some]
    exact Queue.rank_le (hsound.queues_ok q (List.mem_of_getElem? hobject)).subscribers
  · intro hstuck
    have hend : final.Serves object := exec_invariant
      (fun {state event next} hstate hevent hnext => by
        obtain ⟨move, rfl⟩ := hevent
        exact (hstate.work hnext).1) hserves (meets_of_forall hallowed b) hmoves
    obtain ⟨hfinal, after, hplace⟩ := hend
    refine ⟨after, hplace, ?_⟩
    exact Queue.idle_of_stuck (hfinal.queues_ok after (List.mem_of_getElem? hplace))
      fun move => Broker.move_of_work hfinal hplace (hstuck move)

theorem Broker.step_of_returned {b : Broker} {object : Nat} {q : Queue}
    (hobject : b.objects[object]? = some q) (hreturned : q.worker = .returned) (move : Move) :
    b.step (.work object move) = none := by
  have hnone : q.move move = none := by
    cases move <;> simp [Queue.move, hreturned]
  unfold Broker.step
  split
  next => rfl
  next => simp only [hobject, hnone]

/-- The message of the deleted queue fails twice more and is given up; the worker looks
at the ring again for the token that is left, and returns. -/
def toTheEnd : List Move :=
  let failing : Move := .deliver .sorted fun _ => some 500
  [.pop, .read, failing, .requeue, .pop, .read, failing, .pop, .wake, .pop, .exit]

theorem deleted_queue_comes_to_rest :
    ∃ b q final, exec Broker.step {} recreation = some b ∧ b.objects[0]? = some q ∧
      exec Broker.step b (toTheEnd.map (.work 0)) = some final ∧
      toTheEnd.length ≤ 609 * q.items.length + 4 ∧
      (∀ move, final.step (.work 0 move) = none) ∧
      ∃ after, final.objects[0]? = some after ∧
        ((after.worker = .waiting ∧ after.items = []) ∨
          (after.worker = .returned ∧ after.isClosed = true)) := by
  have hrun : (exec Broker.step {} (recreation ++ toTheEnd.map (.work 0))).map
      (fun final => final.objects[0]?.map fun q => q.worker.hasReturned) =
        some (some true) := by
    decide +kernel
  obtain ⟨final, hfinal, hresult⟩ := Option.map_eq_some_iff.mp hrun
  obtain ⟨last, hlast, hreturned⟩ := Option.map_eq_some_iff.mp hresult
  obtain ⟨b, hexec, hmoves⟩ := exec_append.mp hfinal
  obtain ⟨q, hobject⟩ : ∃ q, b.objects[0]? = some q := by
    have hsome : ((exec Broker.step {} recreation).bind fun b => b.objects[0]?).isSome := by
      decide +kernel
    rw [hexec] at hsome
    exact Option.isSome_iff_exists.mp hsome
  have hstuck := Broker.step_of_returned hlast (WorkerPhase.eq_returned hreturned)
  obtain ⟨hbound, hrest⟩ := worker_comes_to_rest hexec hobject hmoves
  exact ⟨b, q, final, hexec, hobject, hmoves, hbound, hstuck, hrest hstuck⟩

end SimonMQ.Push
