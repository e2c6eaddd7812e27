import SimonMQ.Durable.Tally

namespace SimonMQ.Durable

open SimonMQ.Go
open SimonMQ.Attempts

/-! The requests of the workers, one queue object at a time, and what the log has to do
with them. -/

/-- The log accepts the message for a subscriber under this policy. -/
def Accepted (log : List Record) (target : Target) (policy : SubPolicy) : Prop :=
  ∃ rec ∈ log, ∃ enq, rec.enqueued = some enq ∧ enq.msgId = target.1 ∧
    enq.subList.lookup target.2 = some policy

theorem Accepted.append {log : List Record} {target : Target} {policy : SubPolicy}
    (haccepted : Accepted log target policy) (later : List Record) :
    Accepted (log ++ later) target policy := by
  obtain ⟨rec, hrec, hfacts⟩ := haccepted
  exact ⟨rec, List.mem_append_left _ hrec, hfacts⟩

theorem enqueued_unique {log : List Record} (hids : (enqueuedIds log).Nodup)
    {rec other : Record} (hrec : rec ∈ log) (hother : other ∈ log) {enq found : Enqueue}
    (henq : rec.enqueued = some enq) (hfound : other.enqueued = some found)
    (hid : enq.msgId = found.msgId) : enq = found := by
  have hsplit : enqueuedIds log = (log.filterMap Record.enqueued).map Enqueue.msgId := by
    rw [enqueuedIds, List.map_filterMap]
  rw [hsplit] at hids
  exact List.inj_on_of_nodup_map hids (List.mem_filterMap.mpr ⟨rec, hrec, henq⟩)
    (List.mem_filterMap.mpr ⟨other, hother, hfound⟩) hid

theorem Accepted.unique {log : List Record} (hids : (enqueuedIds log).Nodup)
    {target : Target} {policy other : SubPolicy} (hpolicy : Accepted log target policy)
    (hother : Accepted log target other) : policy = other := by
  obtain ⟨rec, hrec, enq, henq, hid, hlookup⟩ := hpolicy
  obtain ⟨rec', hrec', enq', henq', hid', hlookup'⟩ := hother
  have hsame := enqueued_unique hids hrec hrec' henq henq' (hid.trans hid'.symm)
  rw [hsame, hlookup'] at hlookup
  exact (Option.some.inj hlookup).symm

instance (log : List Record) (target : Target) (policy : SubPolicy) :
    Decidable (Accepted log target policy) :=
  inferInstanceAs (Decidable (∃ rec ∈ log, ∃ enq ∈ rec.enqueued, enq.msgId = target.1 ∧
    enq.subList.lookup target.2 = some policy))

def WorkerPhase.left : WorkerPhase → List DeliveryResult
  | .settling _ _ left => left
  | _ => []

/-- A pass judges by the policies of the snapshot. -/
def WorkerPhase.ByPolicy : WorkerPhase → Prop
  | .settling policyByName pass left => ∀ result ∈ left,
      policyByName.lookup result.subName = pass.msg.subPolicySnapshot.lookup result.subName
  | _ => True

namespace Queue

/-- What a step of the worker can do without logging anything. -/
inductive Quiet (q : Queue) : Move → Queue → Prop
  | sleep (hworker : q.worker = .popping) (hbuf : q.buf = []) :
      q.Quiet .pop { q with worker := .waiting }
  | drop {msg : QueueMsg} {buf : List QueueMsg} (hworker : q.worker = .popping)
      (hbuf : q.buf = msg :: buf) : q.Quiet .pop { q with buf }
  | take {msg : QueueMsg} {buf : List QueueMsg} (hworker : q.worker = .popping)
      (hbuf : q.buf = msg :: buf) : q.Quiet .pop { q with buf, worker := .sending msg }
  | wake (hworker : q.worker = .waiting) :
      q.Quiet .wake { q with hasWork := false, worker := .popping }
  | exit (hworker : q.worker = .waiting) : q.Quiet .exit { q with worker := .returned }
  | deliver {msg : QueueMsg} (hworker : q.worker = .sending msg)
      (order : GoMap.Order SubPolicy) (outcome : GoString → Bool) :
      q.Quiet (.deliver order outcome)
        { q with worker := .settling msg.policyByName { msg } (msg.answers order outcome) }
  | retry {policyByName : GoMap SubPolicy} {pass : QueueMsg.Pass} {result : DeliveryResult}
      {left : List DeliveryResult}
      (hworker : q.worker = .settling policyByName pass (result :: left))
      (hnot : (pass.msg.judge policyByName result).2 = false) :
      q.Quiet .settle
        { q with
          worker := .settling policyByName (pass.take policyByName (fun _ => true) result) left }
  | requeue {policyByName : GoMap SubPolicy} {pass : QueueMsg.Pass}
      (hworker : q.worker = .settling policyByName pass []) :
      q.Quiet .finish { q.add pass.msg with worker := .popping }
  | done {policyByName : GoMap SubPolicy} {pass : QueueMsg.Pass}
      (hworker : q.worker = .settling policyByName pass []) :
      q.Quiet .finish { q with worker := .popping }

theorem move_cases {q moved : Queue} {move : Move} {request : Option Request}
    (hmove : q.move move = some (moved, request)) :
    (request = none ∧ q.Quiet move moved) ∨
      ∃ policyByName pass result left, move = .settle ∧
        q.worker = .settling policyByName pass (result :: left) ∧
        (pass.msg.judge policyByName result).2 = true ∧
        request = some (.ack q.name pass.msg.msgId result.subName) ∧
        moved = { q with
          worker :=
            .settling policyByName (pass.take policyByName (fun _ => true) result) left } := by
  cases move with
  | pop =>
      simp only [Queue.move] at hmove
      split at hmove
      · rename_i hworker hbuf
        cases hmove
        exact .inl ⟨rfl, .sleep hworker hbuf⟩
      · rename_i msg buf hworker hbuf
        split_ifs at hmove
        · cases hmove
          exact .inl ⟨rfl, .drop hworker hbuf⟩
        · cases hmove
          exact .inl ⟨rfl, .take hworker hbuf⟩
      · contradiction
  | wake =>
      simp only [Queue.move] at hmove
      split at hmove
      · rename_i hworker _
        cases hmove
        exact .inl ⟨rfl, .wake hworker⟩
      · contradiction
  | exit =>
      simp only [Queue.move] at hmove
      split at hmove
      · rename_i hworker _
        cases hmove
        exact .inl ⟨rfl, .exit hworker⟩
      · contradiction
  | deliver order outcome =>
      simp only [Queue.move] at hmove
      split at hmove
      · rename_i msg hworker
        cases hmove
        exact .inl ⟨rfl, .deliver hworker order outcome⟩
      · contradiction
  | settle =>
      simp only [Queue.move] at hmove
      split at hmove
      · rename_i policyByName pass result left hworker
        cases hacked : (pass.msg.judge policyByName result).2 with
        | true =>
            rw [hacked, if_pos rfl] at hmove
            cases hmove
            exact .inr ⟨policyByName, pass, result, left, rfl, hworker, hacked, rfl, rfl⟩
        | false =>
            rw [hacked, if_neg Bool.false_ne_true] at hmove
            cases hmove
            exact .inl ⟨rfl, .retry hworker hacked⟩
      · contradiction
  | finish =>
      simp only [Queue.move] at hmove
      split at hmove
      · rename_i policyByName pass hworker
        cases hmove
        refine .inl ⟨rfl, ?_⟩
        split_ifs
        · exact .requeue hworker
        · exact .done hworker
      · contradiction

def attempts (q : Queue) : Move → List (Attempt Target)
  | .deliver order outcome =>
      match q.worker with
      | .sending msg => msg.attempts (msg.answers order outcome)
      | _ => []
  | _ => []

theorem mem_ids_of_attempts {q : Queue} {move : Move} {attempt : Attempt Target}
    (hattempt : attempt ∈ q.attempts move) : attempt.key.1 ∈ q.ids := by
  unfold attempts at hattempt
  split at hattempt
  · split at hattempt
    · rename_i msg hworker
      obtain ⟨result, -, rfl⟩ := List.mem_map.mp hattempt
      exact List.mem_map_of_mem (by simp [items, hworker, WorkerPhase.hand])
    · contradiction
  · contradiction

structure Tracked (q : Queue) (log : List Record) (lives : Nat)
    (history : List (Attempt Target)) : Prop where
  stored : ∀ msg ∈ q.adding ++ q.buf, msg.Tracked [] log lives history
  hand : ∀ msg, q.worker.hand = some msg → msg.Tracked q.worker.left log lives history
  policies : q.worker.ByPolicy

namespace Tracked

variable {q moved : Queue} {log : List Record} {lives : Nat}
  {history : List (Attempt Target)}

theorem newQueue (name : GoString) : (newQueue name).Tracked log lives history where
  stored := by simp [Durable.newQueue]
  hand := by simp [Durable.newQueue, WorkerPhase.hand]
  policies := trivial

theorem mem_ids_of_stored {msg : QueueMsg} (hmsg : msg ∈ q.adding ++ q.buf) :
    msg.logId ∈ q.ids := by
  apply List.mem_map_of_mem
  rw [items]
  grind

theorem mem_ids_of_hand {msg : QueueMsg} (hmsg : q.worker.hand = some msg) :
    msg.logId ∈ q.ids := by
  apply List.mem_map_of_mem
  rw [items]
  grind

theorem append_record (htracked : q.Tracked log lives history) {rec : Record}
    {effect : Effect} (heffect : rec.effect = some effect)
    (hother : ∀ msgId, effect.message = some msgId → msgId ∉ q.ids) :
    q.Tracked (log ++ [rec]) lives history where
  stored := fun msg hmsg => (htracked.stored msg hmsg).append_record heffect
    fun hmessage => hother _ hmessage (mem_ids_of_stored hmsg)
  hand := fun msg hmsg => (htracked.hand msg hmsg).append_record heffect
    fun hmessage => hother _ hmessage (mem_ids_of_hand hmsg)
  policies := htracked.policies

theorem append_history (htracked : q.Tracked log lives history)
    {later : List (Attempt Target)} (hother : ∀ attempt ∈ later, attempt.key.1 ∉ q.ids) :
    q.Tracked log lives (history ++ later) where
  stored := fun msg hmsg => (htracked.stored msg hmsg).append_history
    fun attempt hattempt heq => hother attempt hattempt (heq ▸ mem_ids_of_stored hmsg)
  hand := fun msg hmsg => (htracked.hand msg hmsg).append_history
    fun attempt hattempt heq => hother attempt hattempt (heq ▸ mem_ids_of_hand hmsg)
  policies := htracked.policies

theorem idle (htracked : q.Tracked log lives history) (hadding : moved.adding = q.adding)
    (hbuf : moved.buf ⊆ q.buf) (hhand : moved.worker.hand = none)
    (hpolicies : moved.worker.ByPolicy) : moved.Tracked log lives history where
  stored := by
    intro msg hmsg
    apply htracked.stored
    rw [hadding, List.mem_append] at hmsg
    exact List.mem_append.mpr (hmsg.imp id fun hmem => hbuf hmem)
  hand := by simp [hhand]
  policies := hpolicies

theorem stored_ne_hand (hkept : q.Kept log) {hand : QueueMsg}
    (hhand : q.worker.hand = some hand) {msg : QueueMsg} (hmsg : msg ∈ q.adding ++ q.buf) :
    msg.logId ≠ hand.logId := by
  have hnodup := hkept.ids
  rw [ids, items, hhand, Option.toList_some, List.append_assoc, List.singleton_append,
    List.map_append, List.map_cons, List.nodup_middle, List.nodup_cons,
    ← List.map_append] at hnodup
  exact fun heq => hnodup.1 (heq ▸ List.mem_map_of_mem hmsg)

theorem deliver (htracked : q.Tracked log lives history) (hkept : q.Kept log)
    {msg : QueueMsg} (hworker : q.worker = .sending msg) (order : GoMap.Order SubPolicy)
    (outcome : GoString → Bool) :
    Tracked
      { q with worker := .settling msg.policyByName { msg } (msg.answers order outcome) }
      log lives (history ++ msg.attempts (msg.answers order outcome)) := by
  have hhand : q.worker.hand = some msg := by rw [hworker]; rfl
  refine ⟨fun other hother => ?_, fun found hfound => ?_, fun result hresult => ?_⟩
  · refine (htracked.stored other hother).append_history fun attempt hattempt heq => ?_
    obtain ⟨result, -, rfl⟩ := List.mem_map.mp hattempt
    exact stored_ne_hand hkept hhand hother heq.symm
  · cases hfound
    have hsending := htracked.hand msg hhand
    rw [hworker] at hsending
    exact hsending.deliver _
  · have hdue := QueueMsg.Pass.due_answers
      (hkept.items msg (by rw [items, hhand]; simp)).snapshot.keyed order outcome
    have hwaits := (hdue.waiting result hresult).2
    rw [QueueMsg.policyByName, GoMap.lookup_retain_key, if_pos (by simpa using hwaits)]

theorem owed (htracked : q.Tracked log lives history) (hkept : q.Kept log) {move : Move}
    {attempt : Attempt Target} (hattempt : attempt ∈ q.attempts move) :
    (∃ policy, Accepted log attempt.key policy) ∧
      ∀ rec ∈ log, rec.acked ≠ some ⟨attempt.key.1, attempt.key.2⟩ := by
  unfold attempts at hattempt
  split at hattempt
  · rename_i order outcome
    split at hattempt
    · rename_i msg hworker
      have hhand := htracked.hand msg (by rw [hworker]; rfl)
      have hitem : msg ∈ q.items := by simp [items, hworker, WorkerPhase.hand]
      have hdue := QueueMsg.Pass.due_answers (hkept.items msg hitem).snapshot.keyed order
        outcome
      obtain ⟨result, hresult, rfl⟩ := List.mem_map.mp hattempt
      obtain ⟨hsub, hwaits⟩ := hdue.waiting result hresult
      obtain ⟨policy, hpolicy⟩ := Finmap.mem_iff.mp (Finmap.mem_keys.mp hsub)
      obtain ⟨rec, hrec, enq, henq, henqId, hsubs⟩ := hhand.enqueued
      refine ⟨⟨policy, rec, hrec, enq, henq, henqId, hsubs ▸ hpolicy⟩, ?_⟩
      exact fun other hother hack => hwaits (hhand.acked other hother _ hack)
    · contradiction
  · contradiction

theorem settling {policyByName : GoMap SubPolicy} {pass : QueueMsg.Pass}
    {result : DeliveryResult} {left : List DeliveryResult}
    (htracked : q.Tracked log lives history)
    (hworker : q.worker = .settling policyByName pass (result :: left)) :
    pass.msg.Tracked (result :: left) log lives history ∧
      policyByName.lookup result.subName =
        pass.msg.subPolicySnapshot.lookup result.subName := by
  have hpolicies := htracked.policies
  have hhand := htracked.hand pass.msg (by rw [hworker]; rfl)
  rw [hworker] at hpolicies hhand
  exact ⟨hhand, hpolicies result List.mem_cons_self⟩

theorem take {longer : List Record} {policyByName : GoMap SubPolicy} {pass : QueueMsg.Pass}
    {result : DeliveryResult} {left : List DeliveryResult}
    (htracked : q.Tracked log lives history)
    (hworker : q.worker = .settling policyByName pass (result :: left))
    (hstored : ∀ msg ∈ q.adding ++ q.buf, msg.Tracked [] longer lives history)
    (hhand : (pass.take policyByName (fun _ => true) result).msg.Tracked left longer lives
      history) :
    Tracked
      { q with
        worker := .settling policyByName (pass.take policyByName (fun _ => true) result) left }
      longer lives history := by
  refine ⟨hstored, fun found hfound => ?_, fun other hother => ?_⟩
  · cases hfound
    exact hhand
  · have hpolicies := htracked.policies
    rw [hworker] at hpolicies
    rw [hpolicies other (List.mem_cons_of_mem _ hother), QueueMsg.Pass.snapshot_take]

theorem quiet (htracked : q.Tracked log lives history) (hkept : q.Kept log) {move : Move}
    (hquiet : q.Quiet move moved) :
    moved.Tracked log lives (history ++ q.attempts move) := by
  cases hquiet with
  | sleep hworker hbuf =>
      simp only [attempts, List.append_nil]
      exact htracked.idle rfl (List.Subset.refl _) rfl trivial
  | drop hworker hbuf =>
      simp only [attempts, List.append_nil]
      refine htracked.idle rfl ?_ (by rw [hworker]; rfl) htracked.policies
      rw [hbuf]
      exact List.subset_cons_self _ _
  | @take msg buf hworker hbuf =>
      simp only [attempts, List.append_nil]
      refine ⟨fun other hother => htracked.stored other ?_, fun found hfound => ?_, trivial⟩
      · rw [hbuf]
        rw [List.mem_append] at hother
        exact List.mem_append.mpr (hother.imp id (List.mem_cons_of_mem _))
      · cases hfound
        exact htracked.stored msg (by simp [hbuf])
  | wake hworker =>
      simp only [attempts, List.append_nil]
      exact htracked.idle rfl (List.Subset.refl _) rfl trivial
  | exit hworker =>
      simp only [attempts, List.append_nil]
      exact htracked.idle rfl (List.Subset.refl _) rfl trivial
  | deliver hworker order outcome =>
      simp only [attempts, hworker]
      exact htracked.deliver hkept hworker order outcome
  | @retry policyByName pass result left hworker hnot =>
      simp only [attempts, List.append_nil]
      obtain ⟨hhand, hpolicies⟩ := htracked.settling hworker
      have hdue : pass.Due (result :: left) := by
        have horderly := hkept.worker
        rwa [hworker] at horderly
      have hnames := hdue.names
      rw [List.map_cons, List.nodup_cons] at hnames
      exact htracked.take hworker htracked.stored
        (hhand.take_not_acked hnames.1 hpolicies hnot)
  | @requeue policyByName pass hworker =>
      simp only [attempts, List.append_nil]
      have hhand := htracked.hand pass.msg (by rw [hworker]; rfl)
      rw [hworker] at hhand
      refine ⟨fun msg hmsg => ?_, fun found hfound => by contradiction, trivial⟩
      rw [add, ← List.append_assoc, List.mem_append, List.mem_singleton] at hmsg
      rcases hmsg with hold | rfl
      · exact htracked.stored msg hold
      · exact hhand
  | done hworker =>
      simp only [attempts, List.append_nil]
      exact htracked.idle rfl (List.Subset.refl _) rfl trivial

end Tracked

end Queue

/-- Acks have a cause, requests keep to their number, and are for accepted messages. -/
structure Books (log : List Record) (lives : Nat) (history : List (Attempt Target)) :
    Prop where
  spent : ∀ rec ∈ log, ∀ msgId subName, rec.acked = some ⟨msgId, subName⟩ →
    ∃ policy, Accepted log (msgId, subName) policy ∧ Spent policy history (msgId, subName)
  bounded : ∀ target policy, Accepted log target policy →
    (outcomes target history).length ≤ (lives + 1) * allowance policy
  known : ∀ attempt ∈ history, attempt.key.1 ∈ enqueuedIds log

namespace Books

variable {log : List Record} {lives : Nat} {history : List (Attempt Target)} {rec : Record}
  {effect : Effect}

theorem append (hbooks : Books log lives history) (heffect : rec.effect = some effect)
    (hnew : ∀ msgId ∈ effect.newIds, msgId ∉ enqueuedIds log)
    (hspent : ∀ queue msgId subName, effect = .settle queue msgId subName →
      ∃ policy, Accepted log (msgId, subName) policy ∧
        Spent policy history (msgId, subName)) :
    Books (log ++ [rec]) lives history where
  spent := by
    intro found hfound msgId subName hacked
    have hcause : ∃ policy, Accepted log (msgId, subName) policy ∧
        Spent policy history (msgId, subName) := by
      rcases List.mem_append.mp hfound with hold | hlast
      · exact hbooks.spent found hold msgId subName hacked
      · rw [List.mem_singleton.mp hlast, acked_iff_effect, heffect, Option.some.injEq] at hacked
        exact hspent _ msgId subName hacked
    obtain ⟨policy, haccepted, hpolicy⟩ := hcause
    exact ⟨policy, haccepted.append [rec], hpolicy⟩
  bounded := by
    rintro target policy ⟨found, hfound, enq, henq, hid, hlookup⟩
    rcases List.mem_append.mp hfound with hold | hlast
    · exact hbooks.bounded target policy ⟨found, hold, enq, henq, hid, hlookup⟩
    · rw [List.mem_singleton.mp hlast] at henq
      rw [effect_of_enqueued henq, Option.some.injEq] at heffect
      have hunused : target.1 ∉ enqueuedIds log :=
        hnew target.1 (by rw [← heffect, ← hid]; exact List.mem_cons_self)
      have hnone : outcomes target history = [] :=
        outcomes_of_not_mem fun attempt hattempt hkey =>
          hunused (hkey ▸ hbooks.known attempt hattempt)
      rw [hnone]
      exact Nat.zero_le _
  known := by
    intro attempt hattempt
    rw [enqueuedIds_concat log heffect]
    exact List.mem_append_left _ (hbooks.known attempt hattempt)

theorem deliver (hbooks : Books log lives history) (hids : (enqueuedIds log).Nodup)
    {msg : QueueMsg} (htracked : msg.Tracked [] log lives history)
    {results : List DeliveryResult} (hdue : QueueMsg.Pass.Due { msg } results) :
    Books log lives (history ++ msg.attempts results) where
  spent := by
    intro rec hrec msgId subName hacked
    obtain ⟨policy, haccepted, hspent⟩ := hbooks.spent rec hrec msgId subName hacked
    exact ⟨policy, haccepted, hspent.append _⟩
  bounded := by
    intro target policy haccepted
    by_cases hid : target.1 = msg.logId
    · obtain ⟨id, name⟩ := target
      change id = msg.logId at hid
      subst hid
      obtain ⟨rec, hrec, enq, henq, henqId, hsubs⟩ := htracked.enqueued
      by_cases hname : name ∈ results.map DeliveryResult.subName
      · obtain ⟨result, hresult, rfl⟩ := List.mem_map.mp hname
        obtain ⟨hsub, hwaits⟩ := hdue.waiting result hresult
        obtain ⟨found, hfound⟩ := Finmap.mem_iff.mp (Finmap.mem_keys.mp hsub)
        have hsame : policy = found := haccepted.unique hids
          ⟨rec, hrec, enq, henq, henqId, by rw [hsubs]; exact hfound⟩
        subst hsame
        exact ((htracked.deliver results).tally _ policy hfound hwaits).length_le
          (length_unread_le_one hdue.names _)
      · rw [outcomes_append, QueueMsg.outcomes_attempts, unread_of_not_mem hname,
          List.append_nil]
        exact hbooks.bounded _ policy haccepted
    · have hnone : outcomes target (msg.attempts results) = [] := by
        refine outcomes_of_not_mem fun attempt hattempt hkey => hid ?_
        obtain ⟨result, -, rfl⟩ := List.mem_map.mp hattempt
        exact (congrArg Prod.fst hkey).symm
      rw [outcomes_append, hnone, List.append_nil]
      exact hbooks.bounded target policy haccepted
  known := by
    intro attempt hattempt
    rcases List.mem_append.mp hattempt with hold | hnew
    · exact hbooks.known attempt hold
    · obtain ⟨result, -, rfl⟩ := List.mem_map.mp hnew
      obtain ⟨rec, hrec, enq, henq, henqId, -⟩ := htracked.enqueued
      exact List.mem_filterMap.mpr ⟨rec, hrec, by rw [henq, Option.map_some, henqId]⟩

theorem move (hbooks : Books log lives history) (hids : (enqueuedIds log).Nodup) {q : Queue}
    (htracked : q.Tracked log lives history) (hkept : q.Kept log) (move : Move) :
    Books log lives (history ++ q.attempts move) := by
  unfold Queue.attempts
  split
  · rename_i order outcome
    split
    · rename_i msg hworker
      have hhand := htracked.hand msg (by rw [hworker]; rfl)
      rw [hworker] at hhand
      have hitem : msg ∈ q.items := by simp [Queue.items, hworker, WorkerPhase.hand]
      exact hbooks.deliver hids hhand
        (QueueMsg.Pass.due_answers (hkept.items msg hitem).snapshot.keyed order outcome)
    · rw [List.append_nil]
      exact hbooks
  · rw [List.append_nil]
    exact hbooks

theorem restart (hbooks : Books log lives history) : Books log (lives + 1) history where
  spent := hbooks.spent
  bounded := fun target policy haccepted =>
    (hbooks.bounded target policy haccepted).trans (Nat.mul_le_mul_right _ (Nat.le_succ _))
  known := hbooks.known

end Books

end SimonMQ.Durable
