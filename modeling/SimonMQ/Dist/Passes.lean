import Mathlib.Order.Lattice.Nat
import SimonMQ.Settlement

namespace SimonMQ.Dist

open SimonMQ.Go

/-! A message in the hands of its worker, pass after pass, with the calls that others
can see. -/

/-- What a pass meets: the order in which the results arrive, what each subscriber
answers, whether the worker is stopped by then, and whether an ack would succeed. -/
structure PassEnv where
  order : GoMap.Order SubPolicy
  outcome : GoString → Bool
  stopped : Bool
  ackOk : Bool

inductive Call
  | send (subName : GoString) (ok : Bool)
  | onAck (subNames : List GoString) (ok : Bool)
  | onDone
  | add
  deriving DecidableEq, Repr

structure Pass where
  env : PassEnv
  before : QueueMsg
  calls : List Call
  after : QueueMsg

namespace QueueMsg

def Exit.calls : Exit → List Call
  | done => [.onDone]
  | requeued => [.add]
  | dropped => []

/-- `Process`, once, with its calls in order. -/
def attend (msg : QueueMsg) (env : PassEnv) : Pass :=
  let results := msg.answers env.order env.outcome
  let (after, finished, exit) := msg.process env.stopped env.ackOk results
  { env := env
    before := msg
    calls := results.map (fun result => .send result.subName result.ok) ++
      (if finished.isEmpty then [] else [.onAck finished env.ackOk]) ++ exit.calls
    after := after }

/-- The passes over a message, up to the one that does not add it again. -/
def attended (msg : QueueMsg) : List PassEnv → List Pass
  | [] => []
  | env :: envs =>
      let pass := msg.attend env
      pass :: if .add ∈ pass.calls then pass.after.attended envs else []

/-! What one pass does, by the way it ends. -/

def sends (msg : QueueMsg) (env : PassEnv) : List Call :=
  ((env.order.walk msg.pendingSubs).map Prod.fst).map fun name => .send name (env.outcome name)

def finished (msg : QueueMsg) (env : PassEnv) : List GoString :=
  sortStrings (msg.count env.order env.outcome).2

def counted (msg : QueueMsg) (env : PassEnv) : QueueMsg :=
  { msg with retryMap := (msg.count env.order env.outcome).1 }

def acks (msg : QueueMsg) (env : PassEnv) : List Call :=
  if (msg.finished env).isEmpty then [] else [.onAck (msg.finished env) true]

inductive Attends (msg : QueueMsg) (env : PassEnv) : List Call → QueueMsg → Prop
  | nobody (hnobody : msg.pendingSubs.len = 0) : Attends msg env [.onDone] msg
  | dropped (hstopped : env.stopped = true) :
      Attends msg env (msg.sends env) (msg.counted env)
  | refused (hrunning : env.stopped = false) (hfinished : msg.finished env ≠ []) :
      Attends msg env (msg.sends env ++ [.onAck (msg.finished env) false, .add])
        (msg.counted env)
  | settled (hrunning : env.stopped = false)
      (hdone : ((msg.counted env).markAcked (msg.finished env)).done = true) :
      Attends msg env (msg.sends env ++ msg.acks env ++ [.onDone])
        ((msg.counted env).markAcked (msg.finished env))
  | unsettled (hrunning : env.stopped = false)
      (hdone : ((msg.counted env).markAcked (msg.finished env)).done = false) :
      Attends msg env (msg.sends env ++ msg.acks env ++ [.add])
        ((msg.counted env).markAcked (msg.finished env))

theorem attend_of_process {msg after : QueueMsg} {env : PassEnv} {finished : List GoString}
    {exit : Exit} (hkeyed : KeyedByName msg.subList)
    (hprocess : msg.process env.stopped env.ackOk (msg.answers env.order env.outcome) =
      (after, finished, exit)) :
    (msg.attend env).calls = msg.sends env ++
        (if finished.isEmpty then [] else [.onAck finished env.ackOk]) ++ exit.calls ∧
      (msg.attend env).after = after := by
  have hsends : (msg.answers env.order env.outcome).map
      (fun result => Call.send result.subName result.ok) = msg.sends env := by
    rw [answers_eq hkeyed, List.map_map]
    rfl
  simp only [attend, hprocess, hsends, and_self]

theorem attend_attends {msg : QueueMsg} (hkeyed : KeyedByName msg.subList)
    (env : PassEnv) : Attends msg env (msg.attend env).calls (msg.attend env).after := by
  have hcollect : msg.collect (msg.answers env.order env.outcome) =
      (msg.counted env, msg.finished env) := collect_answers hkeyed env.order env.outcome
  by_cases hnobody : msg.pendingSubs.len = 0
  · have hprocess : msg.process env.stopped env.ackOk (msg.answers env.order env.outcome) =
        (msg, [], .done) := if_pos hnobody
    obtain ⟨hcalls, hafter⟩ := attend_of_process hkeyed hprocess
    have hempty : msg.sends env = [] := by
      rw [sends, List.map_eq_nil_iff, ← List.length_eq_zero_iff, length_walk_names, hnobody]
    rw [hcalls, hafter, hempty]
    exact .nobody hnobody
  cases hstopped : env.stopped with
  | true =>
      have hprocess : msg.process env.stopped env.ackOk
          (msg.answers env.order env.outcome) = (msg.counted env, [], .dropped) := by
        simp [process, hnobody, hcollect, hstopped]
      obtain ⟨hcalls, hafter⟩ := attend_of_process hkeyed hprocess
      rw [hcalls, hafter]
      simpa [Exit.calls] using Attends.dropped hstopped
  | false =>
      by_cases hrefused : msg.finished env ≠ [] ∧ env.ackOk = false
      · have hprocess : msg.process env.stopped env.ackOk
            (msg.answers env.order env.outcome) =
              (msg.counted env, msg.finished env, .requeued) := by
          simp [process, hnobody, hcollect, hstopped, hrefused]
        obtain ⟨hcalls, hafter⟩ := attend_of_process hkeyed hprocess
        rw [hcalls, hafter, hrefused.2, if_neg (by simpa using hrefused.1), List.append_assoc]
        exact .refused hstopped hrefused.1
      · have hsettle : ((!(msg.finished env).isEmpty) && !env.ackOk) = false := by
          simpa [Bool.and_eq_false_iff, or_iff_not_imp_left] using hrefused
        have hacks : (if (msg.finished env).isEmpty then []
            else [Call.onAck (msg.finished env) env.ackOk]) = msg.acks env := by
          rw [acks]
          split
          next => rfl
          next hsome => simpa [hsome] using hsettle
        cases hdone : ((msg.counted env).markAcked (msg.finished env)).done with
        | true =>
            have hprocess : msg.process env.stopped env.ackOk
                (msg.answers env.order env.outcome) =
                  ((msg.counted env).markAcked (msg.finished env), msg.finished env,
                    .done) := by
              simp [process, hnobody, hcollect, hstopped, hsettle, hdone]
            obtain ⟨hcalls, hafter⟩ := attend_of_process hkeyed hprocess
            rw [hcalls, hafter, hacks]
            exact .settled hstopped hdone
        | false =>
            have hprocess : msg.process env.stopped env.ackOk
                (msg.answers env.order env.outcome) =
                  ((msg.counted env).markAcked (msg.finished env), msg.finished env,
                    .requeued) := by
              simp [process, hnobody, hcollect, hstopped, hsettle, hdone]
            obtain ⟨hcalls, hafter⟩ := attend_of_process hkeyed hprocess
            rw [hcalls, hafter, hacks]
            exact .unsettled hstopped hdone

/-! What follows from the shape of a pass. -/

theorem mem_finished {msg : QueueMsg} {env : PassEnv} {name : GoString} :
    name ∈ msg.finished env ↔
      name ∈ msg.pendingSubs.keys ∧
        settles msg.pendingSubs msg.retryMap ⟨name, env.outcome name⟩ := by
  rw [finished, mem_sortStrings, Multiset.mem_coe, mem_count]

theorem count_sends (msg : QueueMsg) (env : PassEnv) (name : GoString) (ok : Bool) :
    (msg.sends env).count (.send name ok) =
      if name ∈ msg.pendingSubs.keys ∧ env.outcome name = ok then 1 else 0 := by
  have hnodup : (msg.sends env).Nodup := by
    apply (env.order.enumerates msg.pendingSubs).1.map
    intro left right heq
    exact (Call.send.inj heq).1
  have hmem : .send name ok ∈ msg.sends env ↔
      name ∈ msg.pendingSubs.keys ∧ env.outcome name = ok := by
    rw [sends, List.mem_map, ← GoMap.mem_walk_names env.order]
    constructor
    · rintro ⟨other, hother, heq⟩
      obtain ⟨rfl, hok⟩ := Call.send.inj heq
      exact ⟨hother, hok⟩
    · rintro ⟨hname, hok⟩
      exact ⟨name, hname, by rw [hok]⟩
  rw [hnodup.count]
  simp only [hmem]

theorem onAck_mem_refused {msg : QueueMsg} {env : PassEnv} {names : List GoString}
    {ok : Bool} :
    .onAck names ok ∈ msg.sends env ++ [.onAck (msg.finished env) false, .add] ↔
      names = msg.finished env ∧ ok = false := by
  simp [sends]

theorem onAck_mem_settled {msg : QueueMsg} {env : PassEnv} {last : Call}
    (hlast : last = .onDone ∨ last = .add) {names : List GoString} {ok : Bool} :
    .onAck names ok ∈ msg.sends env ++ msg.acks env ++ [last] ↔
      msg.finished env ≠ [] ∧ names = msg.finished env ∧ ok = true := by
  have hother : .onAck names ok ≠ last := by
    rintro rfl
    simp at hlast
  rw [acks]
  split
  next hnone => simp_all [sends]
  next hsome => simp_all [sends]

namespace Attends

variable {msg after : QueueMsg} {env : PassEnv} {calls : List Call}

theorem subList_eq (hattends : Attends msg env calls after) :
    after.subList = msg.subList := by
  cases hattends <;> rfl

theorem count_send (hattends : Attends msg env calls after) (name : GoString) (ok : Bool) :
    calls.count (.send name ok) =
      if name ∈ msg.pendingSubs.keys ∧ env.outcome name = ok then 1 else 0 := by
  have hacks : (msg.acks env).count (.send name ok) = 0 := by
    rw [acks]
    split <;> simp
  cases hattends with
  | nobody hnobody =>
      have habsent : name ∉ msg.pendingSubs.keys := by
        have hkeys : msg.pendingSubs.keys = ∅ := Finset.card_eq_zero.mp hnobody
        simp [hkeys]
      simp [habsent]
  | dropped hstopped => exact count_sends msg env name ok
  | refused hrunning hfinished => simp [List.count_append, count_sends]
  | settled hrunning hdone => simp [List.count_append, count_sends, hacks]
  | unsettled hrunning hdone => simp [List.count_append, count_sends, hacks]

theorem retries (hattends : Attends msg env calls after) (name : GoString) :
    (after.retryMap.lookup name).getD 0 =
      (msg.retryMap.lookup name).getD 0 + calls.count (.send name false) := by
  have hcounted : ((msg.counted env).retryMap.lookup name).getD 0 =
      (msg.retryMap.lookup name).getD 0 + calls.count (.send name false) := by
    rw [hattends.count_send, counted, lookup_count]
    split <;> simp
  cases hattends with
  | nobody hnobody => simp
  | dropped hstopped => exact hcounted
  | refused hrunning hfinished => exact hcounted
  | settled hrunning hdone => exact hcounted
  | unsettled hrunning hdone => exact hcounted

theorem names_eq (hattends : Attends msg env calls after) {names : List GoString} {ok : Bool}
    (hmem : .onAck names ok ∈ calls) : names = msg.finished env := by
  cases hattends with
  | nobody hnobody => simp at hmem
  | dropped hstopped => simp [sends] at hmem
  | refused hrunning hfinished => exact (onAck_mem_refused.mp hmem).1
  | settled hrunning hdone => exact ((onAck_mem_settled (.inl rfl)).mp hmem).2.1
  | unsettled hrunning hdone => exact ((onAck_mem_settled (.inr rfl)).mp hmem).2.1

theorem mem_markAcked {last : Call} (hlast : last = .onDone ∨ last = .add)
    (name : GoString) :
    name ∈ ((msg.counted env).markAcked (msg.finished env)).ackedSubs ↔
      name ∈ msg.ackedSubs ∨
        ∃ names, .onAck names true ∈ msg.sends env ++ msg.acks env ++ [last] ∧
          name ∈ names := by
  simp only [markAcked, counted, Finset.mem_union, List.mem_toFinset, onAck_mem_settled hlast]
  constructor
  · rintro (hacked | hfinished)
    · exact .inl hacked
    · exact .inr ⟨_, ⟨List.ne_nil_of_mem hfinished, rfl, trivial⟩, hfinished⟩
  · rintro (hacked | ⟨names, ⟨_, rfl, _⟩, hname⟩)
    · exact .inl hacked
    · exact .inr hname

theorem mem_ackedSubs (hattends : Attends msg env calls after) (name : GoString) :
    name ∈ after.ackedSubs ↔
      name ∈ msg.ackedSubs ∨ ∃ names, .onAck names true ∈ calls ∧ name ∈ names := by
  cases hattends with
  | nobody hnobody => simp
  | dropped hstopped => simp [sends, counted]
  | refused hrunning hfinished => simp [sends, counted]
  | settled hrunning hdone => exact mem_markAcked (.inl rfl) name
  | unsettled hrunning hdone => exact mem_markAcked (.inr rfl) name

theorem acked_subset (hattends : Attends msg env calls after)
    (hacked : msg.ackedSubs ⊆ msg.subList.keys) : after.ackedSubs ⊆ msg.subList.keys := by
  intro name hname
  rcases (hattends.mem_ackedSubs name).mp hname with hold | ⟨names, hmem, hin⟩
  · exact hacked hold
  · rw [hattends.names_eq hmem, mem_finished, keys_pendingSubs] at hin
    exact (Finset.mem_sdiff.mp hin.1).1

theorem acked_of_finished (hattends : Attends msg env calls after)
    (hrunning : env.stopped = false) (hacks : ∀ names, .onAck names false ∉ calls)
    {name : GoString} (hname : name ∈ msg.finished env) : name ∈ after.ackedSubs := by
  cases hattends with
  | nobody hnobody =>
      have hkeys : msg.pendingSubs.keys = ∅ := Finset.card_eq_zero.mp hnobody
      rw [mem_finished, hkeys] at hname
      exact absurd hname.1 (Finset.notMem_empty name)
  | dropped hstopped =>
      rw [hstopped] at hrunning
      contradiction
  | refused _ hfinished => exact absurd (onAck_mem_refused.mpr ⟨rfl, rfl⟩) (hacks _)
  | settled _ hdone => exact Finset.mem_union_right _ (List.mem_toFinset.mpr hname)
  | unsettled _ hdone => exact Finset.mem_union_right _ (List.mem_toFinset.mpr hname)

end Attends

theorem Attends.running_of_add {msg after : QueueMsg} {env : PassEnv} {calls : List Call}
    (hattends : Attends msg env calls after) (hadd : .add ∈ calls) : env.stopped = false := by
  cases hattends with
  | nobody hnobody => simp at hadd
  | dropped hstopped => simp [sends] at hadd
  | refused hrunning hfinished => exact hrunning
  | settled hrunning hdone => exact hrunning
  | unsettled hrunning hdone => exact hrunning

theorem done_iff {msg : QueueMsg} (hacked : msg.ackedSubs ⊆ msg.subList.keys) :
    msg.done = true ↔ ∀ name ∈ msg.subList.keys, name ∈ msg.ackedSubs := by
  rw [done, decide_eq_true_eq]
  constructor
  · intro hlen name hname
    rw [Finset.eq_of_subset_of_card_le hacked hlen]
    exact hname
  · intro hall
    exact Finset.card_le_card hall

/-- How a pass lets go of its message: for good, or back to the queue. -/
def LetsGo (subList : GoMap SubPolicy) (calls : List Call) (after : QueueMsg) : Prop :=
  calls.count .onDone = 1 ∧ calls.count .add = 0 ∧
      (∀ name ∈ subList.keys, name ∈ after.ackedSubs) ∨
    calls.count .onDone = 0 ∧ calls.count .add = 1 ∧
      ∃ name ∈ subList.keys, name ∉ after.ackedSubs

theorem Attends.letsGo {msg after : QueueMsg} {env : PassEnv} {calls : List Call}
    (hattends : Attends msg env calls after) (hacked : msg.ackedSubs ⊆ msg.subList.keys)
    (hrunning : env.stopped = false) : LetsGo msg.subList calls after := by
  have hsends : (msg.sends env).count .onDone = 0 ∧ (msg.sends env).count .add = 0 := by
    constructor <;> (apply List.count_eq_zero_of_not_mem; simp [sends])
  have hacks : (msg.acks env).count .onDone = 0 ∧ (msg.acks env).count .add = 0 := by
    rw [acks]
    split <;> simp
  have hsubset := hattends.acked_subset hacked
  cases hattends with
  | nobody hnobody =>
      refine .inl ⟨rfl, rfl, ?_⟩
      intro name hname
      exact len_pendingSubs_eq_zero hnobody name (Finmap.mem_keys.mp hname)
  | dropped hstopped =>
      rw [hstopped] at hrunning
      contradiction
  | refused _ hfinished =>
      obtain ⟨name, hname⟩ := List.exists_mem_of_ne_nil _ hfinished
      rw [mem_finished, keys_pendingSubs, Finset.mem_sdiff] at hname
      refine .inr ⟨?_, ?_, name, hname.1.1, hname.1.2⟩
      · simp [List.count_append, hsends]
      · simp [List.count_append, hsends]
  | settled _ hdone =>
      refine .inl ⟨?_, ?_, (done_iff hsubset).mp hdone⟩
      · simp [List.count_append, hsends, hacks]
      · simp [List.count_append, hsends, hacks]
  | unsettled _ hdone =>
      refine .inr ⟨?_, ?_, ?_⟩
      · simp [List.count_append, hsends, hacks]
      · simp [List.count_append, hsends, hacks]
      · by_contra hnone
        have hall := (done_iff hsubset).mpr fun name hname => by
          by_contra hmissing
          exact hnone ⟨name, hname, hmissing⟩
        rw [hall] at hdone
        contradiction

end QueueMsg

/-! The calls of all passes so far, against the message they leave. -/

def failures (calls : List Call) (name : GoString) : Nat := calls.count (.send name false)

def attempts (calls : List Call) (name : GoString) : Nat :=
  calls.count (.send name true) + calls.count (.send name false)

/-- The failures after which a subscriber is given up. -/
def budget (policy : SubPolicy) : Int := max 1 policy.numberOfRetries.toInt

/-- The pass acks for cause, marks what was acked, spares what was marked before, and
lets go of the message unless it is stopped.  `earlier` are the calls before the pass. -/
structure Pass.Sound (subList : GoMap SubPolicy) (earlier : List Call) (pass : Pass) :
    Prop where
  acked_for_cause : ∀ names ok, .onAck names ok ∈ pass.calls → ∀ name ∈ names,
    .send name true ∈ pass.calls ∨
      ∃ policy, subList.lookup name = some policy ∧
        budget policy ≤ failures (earlier ++ pass.calls) name
  marked_by_ack : ∀ name ∈ pass.after.ackedSubs,
    name ∈ pass.before.ackedSubs ∨
      ∃ names, .onAck names true ∈ pass.calls ∧ name ∈ names
  marked_not_sent : ∀ name ∈ pass.before.ackedSubs, ∀ ok, .send name ok ∉ pass.calls
  letsGo : pass.env.stopped = false → QueueMsg.LetsGo subList pass.calls pass.after

structure Traced (subList : GoMap SubPolicy) (history : List Call) (msg : QueueMsg) :
    Prop where
  subList_eq : msg.subList = subList
  keyed : KeyedByName subList
  acked_subset : msg.ackedSubs ⊆ subList.keys
  retries : ∀ name, (msg.retryMap.lookup name).getD 0 = failures history name

namespace Traced

variable {subList : GoMap SubPolicy} {history : List Call} {msg : QueueMsg}

theorem attends (htraced : Traced subList history msg) (env : PassEnv) :
    QueueMsg.Attends msg env (msg.attend env).calls (msg.attend env).after :=
  QueueMsg.attend_attends (htraced.subList_eq ▸ htraced.keyed) env

theorem next (htraced : Traced subList history msg) (env : PassEnv) :
    Traced subList (history ++ (msg.attend env).calls) (msg.attend env).after := by
  have hattends := htraced.attends env
  have hacked := htraced.acked_subset
  rw [← htraced.subList_eq] at hacked
  exact {
    subList_eq := hattends.subList_eq.trans htraced.subList_eq
    keyed := htraced.keyed
    acked_subset := by
      rw [← htraced.subList_eq]
      exact hattends.acked_subset hacked
    retries := by
      intro name
      rw [hattends.retries, htraced.retries, failures, failures, List.count_append] }

theorem budget_of_finished (htraced : Traced subList history msg) {env : PassEnv}
    {name : GoString} (hname : name ∈ msg.finished env) :
    .send name true ∈ (msg.attend env).calls ∨
      ∃ policy, subList.lookup name = some policy ∧
        budget policy ≤ failures (history ++ (msg.attend env).calls) name := by
  have hattends := htraced.attends env
  obtain ⟨hpending, hsettles⟩ := QueueMsg.mem_finished.mp hname
  obtain ⟨policy, hpolicy⟩ := Finmap.mem_iff.mp (Finmap.mem_keys.mp hpending)
  cases houtcome : env.outcome name with
  | true =>
      left
      have hcount := hattends.count_send name true
      rw [if_pos ⟨hpending, houtcome⟩] at hcount
      exact List.count_pos_iff.mp (by omega)
  | false =>
      right
      have hcount := hattends.count_send name false
      rw [if_pos ⟨hpending, houtcome⟩] at hcount
      have hlookup := (QueueMsg.mem_pendingSubs.mp hpolicy).1
      rw [htraced.subList_eq] at hlookup
      refine ⟨policy, hlookup, ?_⟩
      rw [QueueMsg.settles, houtcome, hpolicy, htraced.retries, Bool.false_or,
        decide_eq_true_eq, Option.getD_some] at hsettles
      rw [budget, failures, List.count_append, hcount]
      change policy.numberOfRetries.toInt ≤ (failures history name + 1 : Nat) at hsettles
      rw [failures] at hsettles
      omega

theorem sound (htraced : Traced subList history msg) (env : PassEnv) :
    (msg.attend env).Sound subList history := by
  have hattends := htraced.attends env
  have hacked := htraced.acked_subset
  rw [← htraced.subList_eq] at hacked
  exact {
    acked_for_cause := by
      intro names ok hmem name hname
      rw [hattends.names_eq hmem] at hname
      exact htraced.budget_of_finished hname
    marked_by_ack := fun name hname => (hattends.mem_ackedSubs name).mp hname
    marked_not_sent := by
      intro name hname ok hmem
      have hcount := hattends.count_send name ok
      have habsent : name ∉ msg.pendingSubs.keys := by
        rw [QueueMsg.keys_pendingSubs, Finset.mem_sdiff]
        exact fun hpending => hpending.2 hname
      rw [if_neg fun hsent => habsent hsent.1] at hcount
      exact List.count_eq_zero.mp hcount hmem
    letsGo := htraced.subList_eq ▸ hattends.letsGo hacked }

theorem attended_cons (msg : QueueMsg) (env : PassEnv) (envs : List PassEnv) :
    msg.attended (env :: envs) =
      msg.attend env :: if .add ∈ (msg.attend env).calls
        then (msg.attend env).after.attended envs else [] :=
  rfl

theorem marked_never_sent (htraced : Traced subList history msg) {name : GoString}
    (hname : name ∈ msg.ackedSubs) (envs : List PassEnv) :
    ∀ pass ∈ msg.attended envs, ∀ ok, .send name ok ∉ pass.calls := by
  induction envs generalizing history msg with
  | nil => simp [QueueMsg.attended]
  | cons env envs ih =>
      intro pass hpass
      rw [attended_cons, List.mem_cons] at hpass
      rcases hpass with rfl | hpass
      · exact (htraced.sound env).marked_not_sent name hname
      · split at hpass
        next =>
            have hkept := ((htraced.attends env).mem_ackedSubs name).mpr (.inl hname)
            exact ih (htraced.next env) hkept pass hpass
        next => contradiction

theorem attended_sound (htraced : Traced subList history msg) {envs : List PassEnv}
    {earlier later : List Pass} {pass : Pass}
    (hsplit : msg.attended envs = earlier ++ pass :: later) :
    pass.Sound subList (history ++ earlier.flatMap Pass.calls) ∧
      ∀ name ∈ pass.after.ackedSubs, ∀ next ∈ later, ∀ ok,
        .send name ok ∉ next.calls := by
  induction envs generalizing history msg earlier with
  | nil => simp [QueueMsg.attended] at hsplit
  | cons env envs ih =>
      rw [attended_cons] at hsplit
      cases earlier with
      | nil =>
          rw [List.nil_append, List.cons.injEq] at hsplit
          obtain ⟨rfl, hlater⟩ := hsplit
          rw [List.flatMap_nil, List.append_nil]
          refine ⟨htraced.sound env, ?_⟩
          intro name hname next hnext
          rw [← hlater] at hnext
          split at hnext
          next => exact (htraced.next env).marked_never_sent hname envs next hnext
          next => contradiction
      | cons first earlier =>
          rw [List.cons_append, List.cons.injEq] at hsplit
          obtain ⟨rfl, hrest⟩ := hsplit
          split at hrest
          next =>
              rw [List.flatMap_cons, ← List.append_assoc]
              exact ih (htraced.next env) hrest
          next => simp at hrest

theorem failed_of_unmarked (htraced : Traced subList history msg) {env : PassEnv}
    (hrunning : env.stopped = false)
    (hacks : ∀ names, .onAck names false ∉ (msg.attend env).calls) {name : GoString}
    {policy : SubPolicy} (hpolicy : subList.lookup name = some policy)
    (hunmarked : name ∉ (msg.attend env).after.ackedSubs) :
    name ∉ msg.ackedSubs ∧ name ∈ msg.pendingSubs.keys ∧
      failures (history ++ (msg.attend env).calls) name = failures history name + 1 ∧
      (failures history name + 1 : Nat) < policy.numberOfRetries.toInt := by
  have hattends := htraced.attends env
  have hbefore : name ∉ msg.ackedSubs :=
    fun hmarked => hunmarked ((hattends.mem_ackedSubs name).mpr (.inl hmarked))
  have hlookup : msg.pendingSubs.lookup name = some policy :=
    QueueMsg.mem_pendingSubs.mpr ⟨htraced.subList_eq ▸ hpolicy, hbefore⟩
  have hpending : name ∈ msg.pendingSubs.keys :=
    Finmap.mem_keys.mpr (Finmap.mem_iff.mpr ⟨policy, hlookup⟩)
  have hopen : ¬ QueueMsg.settles msg.pendingSubs msg.retryMap ⟨name, env.outcome name⟩ :=
    fun hsettles => hunmarked
      (hattends.acked_of_finished hrunning hacks
        (QueueMsg.mem_finished.mpr ⟨hpending, hsettles⟩))
  rw [QueueMsg.settles, hlookup, htraced.retries, Option.getD_some, Bool.or_eq_true, not_or,
    Bool.not_eq_true, decide_eq_true_eq, Int.not_le] at hopen
  have hcount := hattends.count_send name false
  rw [if_pos ⟨hpending, hopen.1⟩] at hcount
  refine ⟨hbefore, hpending, ?_, hopen.2⟩
  rw [failures, failures, List.count_append, hcount]

theorem retries_left (htraced : Traced subList history msg) {envs : List PassEnv}
    (hsome : envs ≠ []) (hrunning : ∀ env ∈ envs, env.stopped = false)
    (hacks : ∀ pass ∈ msg.attended envs, ∀ names, .onAck names false ∉ pass.calls)
    (hopen : ∀ pass ∈ msg.attended envs, .onDone ∉ pass.calls) :
    ∃ name policy, subList.lookup name = some policy ∧ name ∉ msg.ackedSubs ∧
      (failures history name + envs.length : Nat) < policy.numberOfRetries.toInt := by
  induction envs generalizing history msg with
  | nil => contradiction
  | cons env envs ih =>
      have hfirst : msg.attend env ∈ msg.attended (env :: envs) := List.mem_cons_self
      have hrunningFirst := hrunning env List.mem_cons_self
      rcases (htraced.sound env).letsGo hrunningFirst with ⟨hdone, _⟩ | ⟨_, hadd, hleft⟩
      · exact absurd (List.count_pos_iff.mp (by omega)) (hopen _ hfirst)
      have hadded : .add ∈ (msg.attend env).calls := List.count_pos_iff.mp (by omega)
      rw [attended_cons, if_pos hadded] at hacks hopen
      obtain ⟨name, policy, hpolicy, hunmarked, hretries⟩ : ∃ name policy,
          subList.lookup name = some policy ∧ name ∉ (msg.attend env).after.ackedSubs ∧
            (envs = [] ∨ (failures (history ++ (msg.attend env).calls) name +
              envs.length : Nat) < policy.numberOfRetries.toInt) := by
        by_cases hlast : envs = []
        · obtain ⟨name, hname, hunmarked⟩ := hleft
          obtain ⟨policy, hpolicy⟩ := Finmap.mem_iff.mp (Finmap.mem_keys.mp hname)
          exact ⟨name, policy, hpolicy, hunmarked, .inl hlast⟩
        · obtain ⟨name, policy, hpolicy, hunmarked, hretries⟩ := ih (htraced.next env) hlast
            (fun other hmem => hrunning other (List.mem_cons_of_mem _ hmem))
            (fun pass hmem => hacks pass (List.mem_cons_of_mem _ hmem))
            (fun pass hmem => hopen pass (List.mem_cons_of_mem _ hmem))
          exact ⟨name, policy, hpolicy, hunmarked, .inr hretries⟩
      obtain ⟨hbefore, _, hfailures, hbudget⟩ := htraced.failed_of_unmarked hrunningFirst
        (hacks _ List.mem_cons_self) hpolicy hunmarked
      refine ⟨name, policy, hpolicy, hbefore, ?_⟩
      rw [List.length_cons]
      rcases hretries with rfl | hretries
      · simpa using hbudget
      · omega

end Traced

/-- So far no ack has failed: a subscriber that is not marked has only failures behind
it, fewer than its budget. -/
structure Budgeted (subList : GoMap SubPolicy) (history : List Call) (msg : QueueMsg) : Prop
    extends Traced subList history msg where
  unmarked : ∀ name policy, subList.lookup name = some policy → name ∉ msg.ackedSubs →
    attempts history name = failures history name ∧ failures history name < budget policy
  within : ∀ name policy, subList.lookup name = some policy →
    attempts history name ≤ budget policy

namespace Budgeted

variable {subList : GoMap SubPolicy} {history : List Call} {msg : QueueMsg}

theorem attempts_append (history calls : List Call) (name : GoString) :
    attempts (history ++ calls) name = attempts history name + attempts calls name := by
  simp only [attempts, List.count_append]
  omega

theorem attempts_attend (htraced : Traced subList history msg) (env : PassEnv)
    (name : GoString) :
    attempts (msg.attend env).calls name = if name ∈ msg.pendingSubs.keys then 1 else 0 := by
  have hattends := htraced.attends env
  rw [attempts, hattends.count_send, hattends.count_send]
  by_cases hpending : name ∈ msg.pendingSubs.keys
  · cases env.outcome name <;> simp [hpending]
  · simp [hpending]

theorem within_next (hbudgeted : Budgeted subList history msg) (env : PassEnv) :
    ∀ name policy, subList.lookup name = some policy →
      attempts (history ++ (msg.attend env).calls) name ≤ budget policy := by
  intro name policy hpolicy
  have hwithin := hbudgeted.within name policy hpolicy
  rw [attempts_append, attempts_attend hbudgeted.toTraced]
  split
  next hpending =>
      rw [QueueMsg.keys_pendingSubs, Finset.mem_sdiff] at hpending
      have hunmarked := hbudgeted.unmarked name policy hpolicy hpending.2
      omega
  next => simpa using hwithin

theorem next (hbudgeted : Budgeted subList history msg) {env : PassEnv}
    (hrunning : env.stopped = false)
    (hacks : ∀ names, .onAck names false ∉ (msg.attend env).calls) :
    Budgeted subList (history ++ (msg.attend env).calls) (msg.attend env).after where
  toTraced := hbudgeted.toTraced.next env
  unmarked := by
    intro name policy hpolicy hunmarked
    obtain ⟨hbefore, hpending, hfailures, hretries⟩ :=
      hbudgeted.toTraced.failed_of_unmarked hrunning hacks hpolicy hunmarked
    obtain ⟨hsame, _⟩ := hbudgeted.unmarked name policy hpolicy hbefore
    rw [attempts_append, attempts_attend hbudgeted.toTraced, if_pos hpending, hfailures, budget]
    omega
  within := hbudgeted.within_next env

theorem attended_within (hbudgeted : Budgeted subList history msg) (envs : List PassEnv)
    (hacks : ∀ pass ∈ msg.attended envs, ∀ names, .onAck names false ∉ pass.calls) :
    ∀ name policy, subList.lookup name = some policy →
      attempts (history ++ (msg.attended envs).flatMap Pass.calls) name ≤ budget policy := by
  induction envs generalizing history msg with
  | nil => simpa [QueueMsg.attended] using hbudgeted.within
  | cons env envs ih =>
      have hfirst := hacks _ (Traced.attended_cons msg env envs ▸ List.mem_cons_self)
      rw [Traced.attended_cons] at hacks ⊢
      split at hacks
      next hadd =>
          have hrunning := (hbudgeted.toTraced.attends env).running_of_add hadd
          rw [if_pos hadd, List.flatMap_cons, ← List.append_assoc]
          exact ih (hbudgeted.next hrunning hfirst)
            fun pass hmem => hacks pass (List.mem_cons_of_mem _ hmem)
      next hend =>
          rw [if_neg hend, List.flatMap_cons, List.flatMap_nil, List.append_nil]
          exact hbudgeted.within_next env

end Budgeted

theorem newQueueMsg_budgeted {info : MessageInfo} (hkeyed : KeyedByName info.subList)
    (hacked : info.ackedSubs.toFinset ⊆ info.subList.keys) :
    Budgeted info.subList [] (newQueueMsg info) where
  subList_eq := rfl
  keyed := hkeyed
  acked_subset := hacked
  retries := fun name => by simp [newQueueMsg, failures]
  unmarked := fun name policy _ _ => by simp [attempts, failures, budget]
  within := fun name policy _ => by simp [attempts, budget]

def passBudget (subList : GoMap SubPolicy) : Nat :=
  max 1 (subList.keys.sup fun name =>
    ((subList.lookup name).getD .zero).numberOfRetries.toInt.toNat)

/-- Over any passes each ack has its cause, marks follow acks, nobody marked is sent to
again, and a pass that is not stopped either finishes the message or adds it once.  Where
no ack fails each subscriber is sent to within its budget, and the passes come to an end. -/
theorem passes_settle_for_cause {info : MessageInfo}
    (hkeyed : KeyedByName info.subList)
    (hacked : info.ackedSubs.toFinset ⊆ info.subList.keys) (envs : List PassEnv) :
    (∀ earlier pass later,
      (newQueueMsg info).attended envs = earlier ++ pass :: later →
        pass.Sound info.subList (earlier.flatMap Pass.calls) ∧
          ∀ name ∈ pass.after.ackedSubs, ∀ next ∈ later, ∀ ok,
            .send name ok ∉ next.calls) ∧
    ((∀ pass ∈ (newQueueMsg info).attended envs, ∀ names,
        .onAck names false ∉ pass.calls) →
      (∀ name policy, info.subList.lookup name = some policy →
        attempts (((newQueueMsg info).attended envs).flatMap Pass.calls) name ≤
          budget policy) ∧
      ((∀ env ∈ envs, env.stopped = false) → passBudget info.subList ≤ envs.length →
        ∃ pass ∈ (newQueueMsg info).attended envs, .onDone ∈ pass.calls)) := by
  have hbudgeted := newQueueMsg_budgeted hkeyed hacked
  refine ⟨?_, fun hacks => ⟨?_, ?_⟩⟩
  · intro earlier pass later hsplit
    simpa using hbudgeted.toTraced.attended_sound hsplit
  · simpa using hbudgeted.attended_within envs hacks
  · intro hrunning henough
    by_contra hnone
    have hopen : ∀ pass ∈ (newQueueMsg info).attended envs, .onDone ∉ pass.calls :=
      fun pass hpass hdone => hnone ⟨pass, hpass, hdone⟩
    have hsome : envs ≠ [] := by
      rintro rfl
      simp [passBudget] at henough
    obtain ⟨name, policy, hpolicy, _, hretries⟩ :=
      hbudgeted.toTraced.retries_left hsome hrunning hacks hopen
    have hsup : policy.numberOfRetries.toInt.toNat ≤ passBudget info.subList := by
      have hkey : name ∈ info.subList.keys :=
        Finmap.mem_keys.mpr (Finmap.mem_iff.mpr ⟨policy, hpolicy⟩)
      have hle := Finset.le_sup (f := fun name =>
        ((info.subList.lookup name).getD .zero).numberOfRetries.toInt.toNat) hkey
      rw [hpolicy, Option.getD_some] at hle
      exact hle.trans (Nat.le_max_right _ _)
    omega

theorem no_failed_ack {envs : List PassEnv} (hok : ∀ env ∈ envs, env.ackOk = true)
    (msg : QueueMsg) :
    ∀ pass ∈ msg.attended envs, ∀ names, .onAck names false ∉ pass.calls := by
  induction envs generalizing msg with
  | nil => simp [QueueMsg.attended]
  | cons env envs ih =>
      intro pass hpass
      rw [Traced.attended_cons, List.mem_cons] at hpass
      rcases hpass with rfl | hpass
      · intro names hmem
        simp only [QueueMsg.attend, hok env List.mem_cons_self, List.mem_append,
          List.mem_map] at hmem
        rcases hmem with (⟨result, _, hsend⟩ | hack) | hexit
        · contradiction
        · split at hack
          next => contradiction
          next => simp at hack
        · revert hexit
          cases (msg.process _ _ _).2.2 <;> simp [QueueMsg.Exit.calls]
      · split at hpass
        next =>
            exact ih (fun other hmem => hok other (List.mem_cons_of_mem _ hmem)) _ pass hpass
        next => contradiction

/-- One subscriber marked from the start, one with a negative budget that never answers,
and one that answers in the second pass. -/
def mixedInfo : MessageInfo where
  msgID := lit "m"
  payload := lit "p"
  subList := GoMap.ofList
    [(lit "a", ⟨lit "a", lit "u", 3⟩), (lit "b", ⟨lit "b", lit "v", -1⟩),
      (lit "c", ⟨lit "c", lit "w", 2⟩)]
  ackedSubs := [lit "a"]

def mixedEnvs : List PassEnv :=
  [⟨.sorted, fun _ => false, false, true⟩,
    ⟨.sorted, fun name => name = lit "c", false, true⟩,
    ⟨.sorted, fun _ => false, false, true⟩]

theorem mixed_budgets_come_to_an_end :
    passBudget mixedInfo.subList = 3 ∧
      ∃ pass ∈ (newQueueMsg mixedInfo).attended mixedEnvs, .onDone ∈ pass.calls := by
  have hkeyed : KeyedByName mixedInfo.subList := by decide +kernel
  have hacked : mixedInfo.ackedSubs.toFinset ⊆ mixedInfo.subList.keys := by decide +kernel
  have hbudget : passBudget mixedInfo.subList = 3 := by decide +kernel
  have hok : ∀ env ∈ mixedEnvs, env.ackOk = true := by simp [mixedEnvs]
  have hrunning : ∀ env ∈ mixedEnvs, env.stopped = false := by simp [mixedEnvs]
  obtain ⟨_, hends⟩ := passes_settle_for_cause hkeyed hacked mixedEnvs
  exact ⟨hbudget, (hends (no_failed_ack hok _)).2 hrunning (Nat.le_of_eq hbudget)⟩

end SimonMQ.Dist
