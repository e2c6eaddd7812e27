import SimonMQ.Dist.Linear

namespace SimonMQ.Dist

open SimonMQ.Go
open SimonMQ.Transition

/-! What the answer to a call says about the log. -/

theorem FSM.settle_of_error {store : InMemoryStorage}
    {result : Except StorageError InMemoryStorage} {err : ProposeError}
    (herr : unwrapResponse (FSM.settle store result).1 = .error err) :
    (FSM.settle store result).2 = store := by
  cases result with
  | ok next => contradiction
  | error failure => rfl

theorem FSM.applyCommand_of_error {index : UInt64} {store : InMemoryStorage} {cmd : Command}
    {err : ProposeError}
    (herr : unwrapResponse (FSM.applyCommand index store cmd).1 = .error err) :
    (FSM.applyCommand index store cmd).2 = store := by
  unfold FSM.applyCommand at herr ⊢
  cases htype : cmd.type with
  | createQueue | deleteQueue | putSubPolicy | deleteSubPolicy =>
      simp only [htype] at herr ⊢
      exact settle_of_error herr
  | ack =>
      simp only [htype] at herr
      contradiction
  | enqueue =>
      simp only [htype] at herr ⊢
      cases hresult : store.enqueue cmd.queueName cmd.msgID cmd.payload cmd.subList with
      | ok pair =>
          rw [hresult] at herr
          contradiction
      | error failure => rfl
  | unknown code => rfl

theorem FSM.apply_of_error {store : InMemoryStorage} {entry : LogEntry} {err : ProposeError}
    (herr : unwrapResponse (FSM.apply store entry).1 = .error err) :
    (FSM.apply store entry).2 = store := by
  unfold FSM.apply at herr ⊢
  cases hdecode : Command.decode entry.data with
  | error failure => rfl
  | ok cmd =>
      rw [hdecode] at herr
      exact applyCommand_of_error herr

theorem storeAfter_take_succ {log : List CommittedEntry} {position : Nat}
    {committed : CommittedEntry} (hfound : log[position]? = some committed) :
    storeAfter (log.take (position + 1)) =
      (FSM.apply (storeAfter (log.take position)) committed.entry).2 := by
  rw [List.take_add_one, hfound, Option.toList_some, storeAfter, List.map_append,
    FSM.run_append]
  rfl

theorem Job.isSuccess_successStatus (job : Job) : job.successStatus.isSuccess = true := by
  cases job with
  | http request => cases request <;> rfl
  | ack queueName msgID subNames => rfl

theorem error_of_respond {success : Status} {response : Response}
    (hsuccess : success.isSuccess = true)
    (hfailed : (respond success response).isSuccess = false) :
    ∃ err, unwrapResponse response = .error err := by
  unfold respond at hfailed
  split at hfailed
  · exact ⟨_, ‹_›⟩
  · rw [hsuccess] at hfailed
    contradiction

/-- The job proposes these bytes, on a node with some store. -/
def Job.Asks (job : Job) (data : Bytes) : Prop :=
  ∃ store cmd, job.command store = .ok cmd ∧ cmd.encode = .ok data

namespace Cluster

variable {Node : Type}

def Absent (log : List CommittedEntry) (id : Nat) : Prop :=
  ∀ committed ∈ log, committed.handler ≠ id

/-- This is the only entry of the call in the log, and it was committed after the call
came in. -/
structure HoldsAt (log : List CommittedEntry) (id : Nat) (job : Job) (arrivedAt : Nat)
    (position : Nat) (committed : CommittedEntry) : Prop where
  found : log[position]? = some committed
  mine : committed.handler = id
  asked : job.Asks committed.entry.data
  since : arrivedAt ≤ position
  once : ∀ {other : Nat} {entry}, log[other]? = some entry → entry.handler = id →
    other = position

def PhaseTraced (log : List CommittedEntry) (id : Nat) (job : Job) (arrivedAt : Nat) :
    Phase → Prop
  | .received => Absent log id
  | .prepared cmd => Absent log id ∧ ∃ store, job.command store = .ok cmd
  | .proposed _ data => Absent log id ∧ job.Asks data
  | .committed position => ∃ committed, HoldsAt log id job arrivedAt position committed
  | .answered status =>
      Absent log id ∧ status.isSuccess = false ∨
        ∃ position committed, HoldsAt log id job arrivedAt position committed ∧
          status = respond job.successStatus
            (FSM.apply (storeAfter (log.take position)) committed.entry).1

/-! Entries of other calls. -/

section Concat

variable {log : List CommittedEntry} {added : CommittedEntry} {id arrivedAt : Nat} {job : Job}

theorem Absent.concat (habsent : Absent log id) (hother : added.handler ≠ id) :
    Absent (log ++ [added]) id := by
  intro committed hmem
  rcases List.mem_append.mp hmem with hold | hlast
  · exact habsent committed hold
  · cases List.mem_singleton.mp hlast
    exact hother

theorem HoldsAt.concat {position : Nat} {committed : CommittedEntry}
    (hholds : HoldsAt log id job arrivedAt position committed)
    (hother : added.handler ≠ id) :
    HoldsAt (log ++ [added]) id job arrivedAt position committed where
  found := by
    have hlt := (List.getElem?_eq_some_iff.mp hholds.found).1
    rw [List.getElem?_append_left hlt, hholds.found]
  mine := hholds.mine
  asked := hholds.asked
  since := hholds.since
  once := by
    intro other entry hfound hid
    by_cases hold : other < log.length
    · rw [List.getElem?_append_left hold] at hfound
      exact hholds.once hfound hid
    · rw [List.getElem?_append_right (Nat.le_of_not_lt hold)] at hfound
      cases List.mem_singleton.mp (List.mem_of_getElem? hfound)
      exact absurd hid hother

theorem HoldsAt.last (habsent : Absent log id) (hmine : added.handler = id)
    (hasked : job.Asks added.entry.data) (hsince : arrivedAt ≤ log.length) :
    HoldsAt (log ++ [added]) id job arrivedAt log.length added where
  found := List.getElem?_concat_length
  mine := hmine
  asked := hasked
  since := hsince
  once := by
    intro other entry hfound hid
    by_cases hold : other < log.length
    · rw [List.getElem?_append_left hold] at hfound
      exact absurd hid (habsent entry (List.mem_of_getElem? hfound))
    · have hbound := (List.getElem?_eq_some_iff.mp hfound).1
      rw [List.length_append, List.length_singleton] at hbound
      omega

theorem PhaseTraced.concat {phase : Phase} (htraced : PhaseTraced log id job arrivedAt phase)
    (hother : added.handler ≠ id) :
    PhaseTraced (log ++ [added]) id job arrivedAt phase := by
  cases phase with
  | received => exact Absent.concat htraced hother
  | prepared cmd => exact ⟨htraced.1.concat hother, htraced.2⟩
  | proposed term data => exact ⟨htraced.1.concat hother, htraced.2⟩
  | committed position =>
      obtain ⟨committed, hholds⟩ := htraced
      exact ⟨committed, hholds.concat hother⟩
  | answered status =>
      rcases htraced with ⟨habsent, hfailed⟩ | ⟨position, committed, hholds, hstatus⟩
      · exact .inl ⟨habsent.concat hother, hfailed⟩
      · refine .inr ⟨position, committed, hholds.concat hother, ?_⟩
        have hlt := (List.getElem?_eq_some_iff.mp hholds.found).1
        rw [List.take_append_of_le_length (Nat.le_of_lt hlt), hstatus]

end Concat

def CallTraced (log : List CommittedEntry) (id : Nat) : Option (Handler Node) → Prop
  | none => Absent log id
  | some handler =>
      handler.arrivedAt ≤ log.length ∧
        PhaseTraced log id handler.job handler.arrivedAt handler.phase

def Traced (cluster : Cluster Node) : Prop :=
  ∀ id, CallTraced cluster.log id (cluster.handlers id)

theorem traced_initial : (initial : Cluster Node).Traced :=
  fun _ _ hmem => absurd hmem List.not_mem_nil

theorem CallTraced.concat {log : List CommittedEntry} {added : CommittedEntry} {id : Nat}
    {call : Option (Handler Node)} (htraced : CallTraced log id call)
    (hother : added.handler ≠ id) : CallTraced (log ++ [added]) id call := by
  cases call with
  | none => exact Absent.concat htraced hother
  | some handler =>
      refine ⟨?_, htraced.2.concat hother⟩
      rw [List.length_append]
      exact Nat.le_add_right_of_le htraced.1

namespace Traced

variable {cluster : Cluster Node} {id : Nat} {handler : Handler Node}

theorem arrived (htraced : cluster.Traced) (hhandler : cluster.handlers id = some handler) :
    handler.arrivedAt ≤ cluster.log.length := by
  have hcall := htraced id
  rw [hhandler] at hcall
  exact hcall.1

theorem phase (htraced : cluster.Traced) (hhandler : cluster.handlers id = some handler) :
    PhaseTraced cluster.log id handler.job handler.arrivedAt handler.phase := by
  have hcall := htraced id
  rw [hhandler] at hcall
  exact hcall.2

theorem setPhase (htraced : cluster.Traced) {phase : Phase}
    (harrived : handler.arrivedAt ≤ cluster.log.length)
    (hphase : PhaseTraced cluster.log id handler.job handler.arrivedAt phase) :
    (cluster.setPhase id handler phase).Traced := by
  intro other
  by_cases hother : other = id
  · subst hother
    simp only [Cluster.setPhase, Function.update_self]
    exact ⟨harrived, hphase⟩
  · simp only [Cluster.setPhase, Function.update_of_ne hother]
    exact htraced other

theorem commit (htraced : cluster.Traced) (hhandler : cluster.handlers id = some handler)
    {term : Nat} {data : Bytes} (hphase : handler.phase = .proposed term data)
    (index : UInt64) : (cluster.commit id handler term { index, data }).Traced := by
  have hproposed := htraced.phase hhandler
  rw [hphase] at hproposed
  have harrived := htraced.arrived hhandler
  intro other
  by_cases hother : other = id
  · subst hother
    simp only [Cluster.commit, Cluster.setPhase, Function.update_self]
    refine ⟨?_, _, .last hproposed.1 rfl hproposed.2 harrived⟩
    rw [List.length_append]
    exact Nat.le_add_right_of_le harrived
  · simp only [Cluster.commit, Cluster.setPhase, Function.update_of_ne hother]
    exact (htraced other).concat (Ne.symm hother)

variable [DecidableEq Node] {next : Cluster Node} {event : ClusterEvent Node}

theorem step (htraced : cluster.Traced) (hstep : Cluster.step cluster event = some next) :
    next.Traced := by
  cases event with
  | elect node | stepDown node =>
      cases hstep
      exact htraced
  | applyNext node =>
      simp only [Cluster.step] at hstep
      split_ifs at hstep
      cases hstep
      exact htraced
  | arrive id node job =>
      obtain ⟨hfree, -, rfl⟩ := arrive_of_step hstep
      have habsent := htraced id
      rw [hfree] at habsent
      exact htraced.setPhase (Nat.le_refl _) habsent
  | prepare id =>
      obtain ⟨handler, hhandler, hphase, rfl⟩ := prepare_of_step hstep
      have habsent := htraced.phase hhandler
      rw [hphase] at habsent
      unfold Cluster.prepare
      cases hcommand : handler.job.command (cluster.store handler.node) with
      | error status =>
          exact htraced.setPhase (htraced.arrived hhandler)
            (.inl ⟨habsent, Job.isSuccess_of_command_error hcommand⟩)
      | ok cmd => exact htraced.setPhase (htraced.arrived hhandler) ⟨habsent, _, hcommand⟩
  | propose id =>
      obtain ⟨handler, cmd, hhandler, hphase, hproposed⟩ := propose_of_step hstep
      have hprepared := htraced.phase hhandler
      rw [hphase] at hprepared
      obtain ⟨habsent, store, hcommand⟩ := hprepared
      cases hproposed with
      | refused err =>
          exact htraced.setPhase (htraced.arrived hhandler)
            (.inl ⟨habsent, isSuccess_writeError err⟩)
      | taken hencode =>
          exact htraced.setPhase (htraced.arrived hhandler)
            ⟨habsent, store, cmd, hcommand, hencode⟩
  | commit id index =>
      obtain ⟨handler, term, data, hhandler, hphase, rfl⟩ := commit_of_step hstep
      exact htraced.commit hhandler hphase index
  | answer id =>
      obtain ⟨handler, position, response, hhandler, hphase, hresponse, rfl⟩ :=
        answer_of_step hstep
      have hcommitted := htraced.phase hhandler
      rw [hphase] at hcommitted
      obtain ⟨committed, hholds⟩ := hcommitted
      rw [responseAt, hholds.found, Option.map_some, Option.some.injEq] at hresponse
      rw [← hresponse]
      exact htraced.setPhase (htraced.arrived hhandler)
        (.inr ⟨position, committed, hholds, rfl⟩)

end Traced

section Answered

variable {cluster : Cluster Node} {id : Nat} {handler : Handler Node} {status : Status}

theorem Traced.accepted_of_success (htraced : cluster.Traced)
    (hhandler : cluster.handlers id = some handler) (hphase : handler.phase = .answered status)
    (hsuccess : status.isSuccess = true) :
    ∃ position committed,
      HoldsAt cluster.log id handler.job handler.arrivedAt position committed ∧
        cluster.Accepted position := by
  have hanswered := htraced.phase hhandler
  rw [hphase] at hanswered
  rcases hanswered with ⟨-, hfailed⟩ | ⟨position, committed, hholds, hstatus⟩
  · rw [hsuccess] at hfailed
    contradiction
  · rw [hstatus] at hsuccess
    refine ⟨position, committed, hholds, _, ?_, unwrapResponse_of_isSuccess hsuccess⟩
    rw [responseAt, hholds.found, Option.map_some]

theorem Traced.unchanged_of_failure (htraced : cluster.Traced)
    (hhandler : cluster.handlers id = some handler) (hphase : handler.phase = .answered status)
    (hfailed : status.isSuccess = false) {position : Nat} {committed : CommittedEntry}
    (hfound : cluster.log[position]? = some committed) (hid : committed.handler = id) :
    storeAfter (cluster.log.take (position + 1)) = storeAfter (cluster.log.take position) := by
  have hanswered := htraced.phase hhandler
  rw [hphase] at hanswered
  rcases hanswered with ⟨habsent, -⟩ | ⟨held, entry, hholds, hstatus⟩
  · exact absurd hid (habsent committed (List.mem_of_getElem? hfound))
  · rw [hstatus] at hfailed
    obtain ⟨err, herr⟩ := error_of_respond handler.job.isSuccess_successStatus hfailed
    cases hholds.once hfound hid
    cases hholds.found.symm.trans hfound
    rw [storeAfter_take_succ hfound, FSM.apply_of_error herr]

end Answered

end Cluster

end SimonMQ.Dist
