import SimonMQ.Attempts
import SimonMQ.Durable.Resume

namespace SimonMQ.Durable

open SimonMQ.Go
open SimonMQ.Attempts
open SimonMQ.Transition

/-! What the retry counts in memory say about the requests that were sent, over any
number of restarts. -/

/-- A message, by its id in the log, and a subscriber. -/
abbrev Target := GoString × GoString

/-- How often one broker sends to a subscriber at most: it sends before it counts. -/
def allowance (policy : SubPolicy) : Nat := max 1 policy.numberOfRetries.toInt.toNat

/-- A request succeeded, or as many failed as the policy allows. -/
def Spent (policy : SubPolicy) (history : List (Attempt Target)) (target : Target) : Prop :=
  true ∈ outcomes target history ∨
    policy.numberOfRetries.toInt ≤ failures target history

instance (policy : SubPolicy) (history : List (Attempt Target)) (target : Target) :
    Decidable (Spent policy history target) :=
  inferInstanceAs (Decidable (_ ∨ _))

theorem Spent.append {policy : SubPolicy} {history : List (Attempt Target)} {target : Target}
    (hspent : Spent policy history target) (later : List (Attempt Target)) :
    Spent policy (history ++ later) target := by
  rcases hspent with hok | hbudget
  · exact .inl (by simp [hok])
  · refine .inr ?_
    rw [failures_append]
    omega

def unread (left : List DeliveryResult) (name : GoString) : List Bool :=
  (left.filter fun result => result.subName = name).map DeliveryResult.success

@[simp] theorem unread_nil (name : GoString) : unread [] name = [] := rfl

theorem unread_cons_self (result : DeliveryResult) (left : List DeliveryResult) :
    unread (result :: left) result.subName =
      result.success :: unread left result.subName := by
  simp [unread]

theorem unread_cons_other {result : DeliveryResult} {name : GoString}
    (hother : name ≠ result.subName) (left : List DeliveryResult) :
    unread (result :: left) name = unread left name := by
  simp [unread, Ne.symm hother]

theorem unread_of_not_mem {left : List DeliveryResult} {name : GoString}
    (hname : name ∉ left.map DeliveryResult.subName) : unread left name = [] := by
  rw [unread, List.map_eq_nil_iff, List.filter_eq_nil_iff]
  intro result hresult
  simpa using fun heq : result.subName = name => hname (heq ▸ List.mem_map_of_mem hresult)

theorem length_unread_le_one {left : List DeliveryResult}
    (hnodup : (left.map DeliveryResult.subName).Nodup) (name : GoString) :
    (unread left name).length ≤ 1 := by
  induction left with
  | nil => exact Nat.zero_le 1
  | cons result left ih =>
      rw [List.map_cons, List.nodup_cons] at hnodup
      by_cases hname : name = result.subName
      · subst hname
        rw [unread_cons_self, unread_of_not_mem hnodup.1]
        exact Nat.le_refl 1
      · rw [unread_cons_other hname]
        exact ih hnodup.2

namespace QueueMsg

def retries (msg : QueueMsg) (name : GoString) : Nat := (msg.retryMap.lookup name).getD 0

def attempts (msg : QueueMsg) (results : List DeliveryResult) : List (Attempt Target) :=
  results.map fun result =>
    { key := (msg.logId, result.subName)
      budget := ((msg.subPolicySnapshot.lookup result.subName).getD .zero).numberOfRetries.toInt
      ok := result.success }

theorem outcomes_attempts (msg : QueueMsg) (results : List DeliveryResult) (name : GoString) :
    outcomes (msg.logId, name) (msg.attempts results) = unread results name := by
  rw [outcomes, attempts, unread, List.filter_map, List.map_map]
  congr 1
  apply List.filter_congr
  simp

/-- The requests for a subscriber: those of earlier brokers, this one's failures as they
are counted, and those with answers still to be read. -/
structure Tally (msg : QueueMsg) (lives : Nat) (history : List (Attempt Target))
    (name : GoString) (policy : SubPolicy) (answers : List Bool) : Prop where
  below : msg.retries name < allowance policy
  outcomes : ∃ earlier : List Bool, earlier.length ≤ lives * allowance policy ∧
    outcomes (msg.logId, name) history =
      earlier ++ List.replicate (msg.retries name) false ++ answers

namespace Tally

variable {msg : QueueMsg} {lives : Nat} {history : List (Attempt Target)} {name : GoString}
  {policy : SubPolicy} {answers : List Bool}

theorem length_le (htally : msg.Tally lives history name policy answers)
    (hanswers : answers.length ≤ 1) :
    (Attempts.outcomes (msg.logId, name) history).length ≤ (lives + 1) * allowance policy := by
  obtain ⟨earlier, hearlier, houtcomes⟩ := htally.outcomes
  have hbelow := htally.below
  rw [houtcomes, List.length_append, List.length_append, List.length_replicate,
    Nat.add_mul, Nat.one_mul]
  omega

theorem retries_le (htally : msg.Tally lives history name policy answers) :
    msg.retries name + answers.count false ≤ failures (msg.logId, name) history := by
  obtain ⟨earlier, -, houtcomes⟩ := htally.outcomes
  rw [failures, houtcomes, List.count_append, List.count_append, List.count_replicate_self]
  omega

theorem ok (htally : msg.Tally lives history name policy answers) (hok : true ∈ answers) :
    true ∈ Attempts.outcomes (msg.logId, name) history := by
  obtain ⟨earlier, -, houtcomes⟩ := htally.outcomes
  rw [houtcomes]
  exact List.mem_append_right _ hok

theorem congr {other : QueueMsg} {longer : List (Attempt Target)}
    (htally : msg.Tally lives history name policy answers) (hid : other.logId = msg.logId)
    (hretries : other.retries name = msg.retries name)
    (houtcomes : Attempts.outcomes (msg.logId, name) longer =
      Attempts.outcomes (msg.logId, name) history) :
    other.Tally lives longer name policy answers where
  below := hretries ▸ htally.below
  outcomes := by
    rw [hid, hretries, houtcomes]
    exact htally.outcomes

end Tally

/-- The message is in the log, the log's acks are marked, and for everybody else the
requests are accounted for. -/
structure Tracked (msg : QueueMsg) (left : List DeliveryResult) (log : List Record)
    (lives : Nat) (history : List (Attempt Target)) : Prop where
  enqueued : ∃ rec ∈ log, ∃ enq, rec.enqueued = some enq ∧ enq.msgId = msg.logId ∧
    enq.subList = msg.subPolicySnapshot
  acked : ∀ rec ∈ log, ∀ subName, rec.acked = some ⟨msg.logId, subName⟩ →
    subName ∈ msg.ackedSubs
  tally : ∀ name policy, msg.subPolicySnapshot.lookup name = some policy →
    name ∉ msg.ackedSubs → msg.Tally lives history name policy (unread left name)

namespace Tracked

variable {msg : QueueMsg} {left : List DeliveryResult} {log : List Record} {lives : Nat}
  {history : List (Attempt Target)} {rec : Record} {effect : Effect}

theorem append_record (htracked : msg.Tracked left log lives history)
    (heffect : rec.effect = some effect) (hother : effect.message ≠ some msg.logId) :
    msg.Tracked left (log ++ [rec]) lives history where
  enqueued := by
    obtain ⟨found, hfound, hfacts⟩ := htracked.enqueued
    exact ⟨found, List.mem_append_left _ hfound, hfacts⟩
  acked := by
    intro found hfound subName hacked
    rcases List.mem_append.mp hfound with hold | hlast
    · exact htracked.acked found hold subName hacked
    · rw [List.mem_singleton.mp hlast, acked_iff_effect, heffect, Option.some.injEq] at hacked
      subst hacked
      exact absurd rfl hother
  tally := htracked.tally

theorem append_history (htracked : msg.Tracked left log lives history)
    {later : List (Attempt Target)} (hother : ∀ attempt ∈ later, attempt.key.1 ≠ msg.logId) :
    msg.Tracked left log lives (history ++ later) where
  enqueued := htracked.enqueued
  acked := htracked.acked
  tally := by
    intro name policy hpolicy hwaits
    refine (htracked.tally name policy hpolicy hwaits).congr rfl rfl ?_
    have hnone : outcomes (msg.logId, name) later = [] :=
      outcomes_of_not_mem fun attempt hattempt hkey =>
        hother attempt hattempt (congrArg Prod.fst hkey)
    rw [outcomes_append, hnone, List.append_nil]

theorem fresh (hretry : msg.retryMap = ∅)
    (henqueued : ∃ rec ∈ log, ∃ enq, rec.enqueued = some enq ∧ enq.msgId = msg.logId ∧
      enq.subList = msg.subPolicySnapshot)
    (hacked : ∀ rec ∈ log, ∀ subName, rec.acked = some ⟨msg.logId, subName⟩ →
      subName ∈ msg.ackedSubs)
    (hearlier : ∀ name policy, msg.subPolicySnapshot.lookup name = some policy →
      (outcomes (msg.logId, name) history).length ≤ lives * allowance policy) :
    msg.Tracked [] log lives history where
  enqueued := henqueued
  acked := hacked
  tally := by
    intro name policy hpolicy hwaits
    have hnone : msg.retries name = 0 := by simp [retries, hretry]
    refine ⟨?_, outcomes (msg.logId, name) history, hearlier name policy hpolicy, ?_⟩
    · rw [hnone, allowance]
      omega
    · simp [hnone]

theorem deliver (htracked : msg.Tracked [] log lives history)
    (results : List DeliveryResult) :
    msg.Tracked results log lives (history ++ msg.attempts results) where
  enqueued := htracked.enqueued
  acked := htracked.acked
  tally := by
    intro name policy hpolicy hwaits
    obtain ⟨hbelow, earlier, hearlier, houtcomes⟩ := htracked.tally name policy hpolicy hwaits
    refine ⟨hbelow, earlier, hearlier, ?_⟩
    rw [outcomes_append, outcomes_attempts, houtcomes, unread_nil, List.append_nil]

end Tracked

theorem retries_judge_other {policyByName : GoMap SubPolicy} {msg : QueueMsg}
    {result : DeliveryResult} {name : GoString} (hother : name ≠ result.subName) :
    (msg.judge policyByName result).1.retries name = msg.retries name := by
  unfold judge
  split_ifs
  · rfl
  · simp only [retries, GoMap.lookup_insert_eq, if_neg hother]

theorem judge_of_not_acked {policyByName : GoMap SubPolicy} {msg : QueueMsg}
    {result : DeliveryResult} (hnot : (msg.judge policyByName result).2 = false) :
    result.success = false ∧
      (msg.judge policyByName result).1.retries result.subName =
        msg.retries result.subName + 1 ∧
      (msg.retries result.subName + 1 : Int) <
        ((policyByName.lookup result.subName).getD .zero).numberOfRetries.toInt := by
  unfold judge at hnot ⊢
  split_ifs at hnot ⊢ with hok
  · rw [decide_eq_false_iff_not, Int.not_le] at hnot
    refine ⟨by simpa using hok, ?_, by exact_mod_cast hnot⟩
    simp [retries]

theorem judge_of_acked {policyByName : GoMap SubPolicy} {msg : QueueMsg}
    {result : DeliveryResult} (hacked : (msg.judge policyByName result).2 = true) :
    result.success = true ∨ result.success = false ∧
      ((policyByName.lookup result.subName).getD .zero).numberOfRetries.toInt ≤
        (msg.retries result.subName + 1 : Int) := by
  unfold judge at hacked
  split_ifs at hacked with hok
  · exact .inl hok
  · rw [decide_eq_true_eq] at hacked
    exact .inr ⟨by simpa using hok, by exact_mod_cast hacked⟩

theorem Pass.snapshot_take (pass : Pass) (policyByName : GoMap SubPolicy)
    (result : DeliveryResult) :
    (pass.take policyByName (fun _ => true) result).msg.subPolicySnapshot =
      pass.msg.subPolicySnapshot := by
  cases hacked : (pass.msg.judge policyByName result).2 with
  | true => simp [take_of_acked hacked, markAcked]
  | false => simp [take_of_not_acked hacked]

section Settle

variable {policyByName : GoMap SubPolicy} {pass : Pass} {result : DeliveryResult}
  {left : List DeliveryResult} {log : List Record} {lives : Nat}
  {history : List (Attempt Target)} {policy : SubPolicy}

theorem Tracked.spent (htracked : pass.msg.Tracked (result :: left) log lives history)
    (hpolicy : pass.msg.subPolicySnapshot.lookup result.subName = some policy)
    (hwaits : result.subName ∉ pass.msg.ackedSubs)
    (hpolicies : policyByName.lookup result.subName = some policy)
    (hacked : (pass.msg.judge policyByName result).2 = true) :
    Spent policy history (pass.msg.logId, result.subName) := by
  have htally := htracked.tally result.subName policy hpolicy hwaits
  rw [unread_cons_self] at htally
  rcases judge_of_acked hacked with hok | ⟨hfailed, hbudget⟩
  · exact .inl (htally.ok (by simp [hok]))
  · have hcount := htally.retries_le
    rw [hfailed, List.count_cons_self] at hcount
    rw [hpolicies, Option.getD_some] at hbudget
    refine .inr ?_
    omega

theorem Tracked.take_not_acked (htracked : pass.msg.Tracked (result :: left) log lives history)
    (hnew : result.subName ∉ left.map DeliveryResult.subName)
    (hpolicies : policyByName.lookup result.subName =
      pass.msg.subPolicySnapshot.lookup result.subName)
    (hnot : (pass.msg.judge policyByName result).2 = false) :
    (pass.take policyByName (fun _ => true) result).msg.Tracked left log lives history := by
  obtain ⟨hfailed, hretries, hbelow⟩ := judge_of_not_acked hnot
  have hid : (pass.msg.judge policyByName result).1.logId = pass.msg.logId :=
    congrArg Utf8.toValid (judge_msgId policyByName pass.msg result)
  rw [Pass.take_of_not_acked hnot]
  refine ⟨?_, ?_, fun name policy hpolicy hwaits => ?_⟩
  · simpa [hid] using htracked.enqueued
  · simpa [hid] using htracked.acked
  · rw [judge_subPolicySnapshot] at hpolicy
    rw [judge_ackedSubs] at hwaits
    have htally := htracked.tally name policy hpolicy hwaits
    by_cases hname : name = result.subName
    · subst hname
      rw [hpolicies, hpolicy, Option.getD_some] at hbelow
      obtain ⟨-, earlier, hearlier, houtcomes⟩ := htally
      refine ⟨?_, earlier, hearlier, ?_⟩
      · rw [hretries, allowance]
        omega
      · rw [hid, hretries, houtcomes, unread_cons_self, hfailed, unread_of_not_mem hnew,
          List.replicate_succ', List.append_nil, ← List.append_assoc, List.append_assoc]
    · rw [unread_cons_other hname] at htally
      exact htally.congr hid (retries_judge_other hname) rfl

theorem Tracked.take_acked (htracked : pass.msg.Tracked (result :: left) log lives history)
    {rec : Record} {queue : GoString}
    (heffect : rec.effect = some (.settle queue pass.msg.logId result.subName))
    (hacked : (pass.msg.judge policyByName result).2 = true) :
    (pass.take policyByName (fun _ => true) result).msg.Tracked left (log ++ [rec]) lives
      history := by
  have hid : ((pass.msg.judge policyByName result).1.markAcked result.subName).logId =
      pass.msg.logId := congrArg Utf8.toValid (judge_msgId policyByName pass.msg result)
  rw [Pass.take_of_acked hacked]
  refine ⟨?_, fun found hfound subName hack => ?_, fun name policy hpolicy hwaits => ?_⟩
  · obtain ⟨found, hfound, enq, henq, henqId, hsubs⟩ := htracked.enqueued
    exact ⟨found, List.mem_append_left _ hfound, enq, henq, henqId.trans hid.symm,
      by simpa [markAcked] using hsubs⟩
  · rw [hid] at hack
    simp only [markAcked, judge_ackedSubs, Finset.mem_insert]
    rcases List.mem_append.mp hfound with hold | hlast
    · exact .inr (htracked.acked found hold subName hack)
    · rw [List.mem_singleton.mp hlast, acked_iff_effect, heffect] at hack
      cases hack
      exact .inl rfl
  · simp only [markAcked, judge_subPolicySnapshot] at hpolicy
    simp only [markAcked, judge_ackedSubs, Finset.mem_insert, not_or] at hwaits
    have htally := htracked.tally name policy hpolicy hwaits.2
    rw [unread_cons_other hwaits.1] at htally
    exact htally.congr hid (retries_judge_other hwaits.1) rfl

end Settle

end QueueMsg

end SimonMQ.Durable
