import SimonMQ.Dist.Cluster
import SimonMQ.SharedObject

namespace SimonMQ.Dist

open SimonMQ.Go
open SimonMQ.SharedObject
open SimonMQ.Transition

/-! The calls that go through `propose` behave as if one machine without replicas took
them one at a time. -/

theorem Command.validate_of_encode {cmd : Command} {data : Bytes}
    (hencode : cmd.encode = .ok data) : cmd.validate = none := by
  unfold encode at hencode
  split at hencode
  · contradiction
  · assumption

theorem FSM.applyCommand_of_validate {cmd : Command} (hvalid : cmd.validate = none)
    (index : UInt64) (store : InMemoryStorage) :
    FSM.applyCommand index store cmd = FSM.applyCommand 0 store cmd := by
  unfold FSM.applyCommand
  split <;> try rfl
  rename_i code htype
  simp only [Command.validate, htype] at hvalid
  split at hvalid <;> contradiction

theorem FSM.apply_of_encode {cmd : Command} {entry : LogEntry}
    (hencode : cmd.encode = .ok entry.data) (store : InMemoryStorage) :
    FSM.apply store entry = FSM.applyCommand 0 store cmd.coerce := by
  have hvalid := Command.validate_coerce (Command.validate_of_encode hencode)
  rw [FSM.apply, Command.decode_encode hencode]
  exact FSM.applyCommand_of_validate hvalid entry.index store

/-- One machine that applies a command as soon as it is asked to, with the command's
strings as the log would carry them. -/
def machine : Object InMemoryStorage Command (Except ProposeError Response) where
  initial := .empty
  apply store cmd :=
    let (response, next) := FSM.applyCommand 0 store cmd.coerce
    (unwrapResponse response, next)

def Recorded (call : Nat × Command) (committed : CommittedEntry) : Prop :=
  committed.handler = call.1 ∧ call.2.encode = .ok committed.entry.data

theorem foldl_machine_of_recorded {order : List (Nat × Command)} {log : List CommittedEntry}
    (hrecorded : List.Forall₂ Recorded order log) (store : InMemoryStorage) :
    order.foldl (fun state call => (machine.apply state call.2).2) store =
      (FSM.run store (log.map CommittedEntry.entry)).2 := by
  induction hrecorded generalizing store with
  | nil => rfl
  | cons hcall hrest ih =>
      rw [List.foldl_cons, List.map_cons, FSM.run_cons, FSM.apply_of_encode hcall.2]
      exact ih _

theorem after_of_recorded {order : List (Nat × Command)} {log : List CommittedEntry}
    (hrecorded : List.Forall₂ Recorded order log) : machine.after order = storeAfter log :=
  foldl_machine_of_recorded hrecorded .empty

namespace Cluster

variable {Node : Type}

theorem resultAt_of_recorded {cluster : Cluster Node} {order : List (Nat × Command)}
    (hrecorded : List.Forall₂ Recorded order cluster.log) {position : Nat}
    {response : Response} (hresponse : cluster.responseAt position = some response) :
    machine.resultAt order position = some (unwrapResponse response) := by
  obtain ⟨committed, hfound, rfl⟩ := Option.map_eq_some_iff.mp hresponse
  obtain ⟨hlt, hget⟩ := List.getElem?_eq_some_iff.mp hfound
  have hlength := hrecorded.length_eq
  have hcall := hrecorded.get (hlength ▸ hlt) hlt
  rw [List.get_eq_getElem, List.get_eq_getElem, hget] at hcall
  have hbefore := after_of_recorded (List.forall₂_take position hrecorded)
  rw [Object.resultAt, List.getElem?_eq_getElem (hlength ▸ hlt), Option.map_some, hbefore,
    FSM.apply_of_encode hcall.2]
  rfl

/-! What each event does. -/

/-- Raft takes the command, or the call ends with an error and nothing is proposed. -/
inductive Proposed (cluster : Cluster Node) (id : Nat) (handler : Handler Node)
    (cmd : Command) : Cluster Node → Prop
  | refused (err : ProposeError)
      (hrefused : ∀ data term, cmd.encode = .ok data →
        cluster.leads handler.node ≠ some term) :
      Proposed cluster id handler cmd
        (cluster.setPhase id handler (.answered (writeError err)))
  | taken {term : Nat} {data : Bytes} (hencode : cmd.encode = .ok data)
      (hleads : cluster.leads handler.node = some term) :
      Proposed cluster id handler cmd (cluster.setPhase id handler (.proposed term data))

theorem proposed_propose (cluster : Cluster Node) (id : Nat) (handler : Handler Node)
    (cmd : Command) : Proposed cluster id handler cmd (cluster.propose id handler cmd) := by
  unfold Cluster.propose
  cases hencode : cmd.encode with
  | error err => exact .refused _ fun data term hok => by simp [hencode] at hok
  | ok data =>
      cases hleads : cluster.leads handler.node with
      | none => exact .refused _ fun data term _ => by simp [hleads]
      | some term => exact .taken hencode hleads

section

variable [DecidableEq Node] {cluster next : Cluster Node} {id : Nat}

theorem arrive_of_step {node : Node} {job : Job}
    (hstep : step cluster (.arrive id node job) = some next) :
    cluster.handlers id = none ∧ (job.requiresLeader = true → cluster.leads node ≠ none) ∧
      next = cluster.setPhase id
        { node, job, arrivedAt := cluster.log.length, phase := .received } .received := by
  simp only [step] at hstep
  split_ifs at hstep with hused hleads
  cases hstep
  refine ⟨by simpa using hused, ?_, rfl⟩
  intro hrequires hnone
  simp [hrequires, hnone] at hleads

theorem prepare_of_step (hstep : step cluster (.prepare id) = some next) :
    ∃ handler, cluster.handlers id = some handler ∧ handler.phase = .received ∧
      next = cluster.prepare id handler := by
  simp only [step] at hstep
  split at hstep
  · split at hstep
    · cases hstep
      exact ⟨_, ‹_›, ‹_›, rfl⟩
    · contradiction
  · contradiction

theorem propose_of_step (hstep : step cluster (.propose id) = some next) :
    ∃ handler cmd, cluster.handlers id = some handler ∧ handler.phase = .prepared cmd ∧
      Proposed cluster id handler cmd next := by
  simp only [step] at hstep
  split at hstep
  · split at hstep
    · cases hstep
      exact ⟨_, _, ‹_›, ‹_›, proposed_propose cluster id _ _⟩
    · contradiction
  · contradiction

theorem commit_of_step {index : UInt64} (hstep : step cluster (.commit id index) = some next) :
    ∃ handler term data, cluster.handlers id = some handler ∧
      handler.phase = .proposed term data ∧
      next = cluster.commit id handler term { index, data } := by
  simp only [step] at hstep
  split at hstep
  · split at hstep
    · split_ifs at hstep
      cases hstep
      exact ⟨_, _, _, ‹_›, ‹_›, rfl⟩
    · contradiction
  · contradiction

theorem answer_of_step (hstep : step cluster (.answer id) = some next) :
    ∃ handler position response, cluster.handlers id = some handler ∧
      handler.phase = .committed position ∧ cluster.responseAt position = some response ∧
      next = cluster.setPhase id handler
        (.answered (respond handler.job.successStatus response)) := by
  simp only [step] at hstep
  split at hstep
  · split at hstep
    · split_ifs at hstep
      obtain ⟨response, hresponse, rfl⟩ := Option.map_eq_some_iff.mp hstep
      exact ⟨_, _, response, ‹_›, ‹_›, hresponse, rfl⟩
    · contradiction
  · contradiction

end

abbrev Proposals := List (Event Command (Except ProposeError Response))

/-- The calls of `propose` that Raft takes, and their answers.  A call that Raft refuses
at once has no entry and is no part of the history; one whose caller is told that the
leadership was lost stays without an answer. -/
def proposals (cluster : Cluster Node) : ClusterEvent Node → Proposals
  | .propose id =>
      match cluster.handlers id with
      | some handler =>
          match handler.phase with
          | .prepared cmd =>
              match cmd.encode, cluster.leads handler.node with
              | .ok _, some _ => [.call id cmd]
              | _, _ => []
          | _ => []
      | none => []
  | .answer id =>
      match cluster.handlers id with
      | some handler =>
          match handler.phase with
          | .committed position =>
              (cluster.responseAt position).toList.map fun response =>
                .reply id (unwrapResponse response)
          | _ => []
      | none => []
  | .elect _ | .stepDown _ | .applyNext _ | .arrive _ _ _ | .prepare _ | .commit _ _ => []

def Placed (history : Proposals) (order : List (Nat × Command)) (id : Nat) :
    Option Phase → Prop
  | none | some .received | some (.prepared _) => id ∉ callIDs history
  | some (.proposed _ data) =>
      id ∉ order.map Prod.fst ∧ ∃ cmd, .call id cmd ∈ history ∧ cmd.encode = .ok data
  | some (.committed position) =>
      id ∉ replyIDs history ∧ ∃ cmd, order[position]? = some (id, cmd)
  | some (.answered _) => True

section Placed

variable {history : Proposals} {order : List (Nat × Command)} {id other : Nat}
  {phase : Option Phase}

theorem Placed.call (hplaced : Placed history order other phase) (hother : other ≠ id)
    (cmd : Command) : Placed (history ++ [.call id cmd]) order other phase := by
  rcases phase with _ | phase
  · simpa [Placed, hother] using hplaced
  · cases phase with
    | received => simpa [Placed, hother] using hplaced
    | prepared => simpa [Placed, hother] using hplaced
    | proposed term data =>
        obtain ⟨hnew, found, hcall, hencode⟩ := hplaced
        exact ⟨hnew, found, List.mem_append_left _ hcall, hencode⟩
    | committed position => simpa [Placed] using hplaced
    | answered status => trivial

theorem Placed.commit (hplaced : Placed history order other phase) (hother : other ≠ id)
    (cmd : Command) : Placed history (order ++ [(id, cmd)]) other phase := by
  rcases phase with _ | phase
  · exact hplaced
  · cases phase with
    | received => exact hplaced
    | prepared => exact hplaced
    | proposed term data => simpa [Placed, hother] using hplaced
    | committed position =>
        obtain ⟨hpending, found, hfound⟩ := hplaced
        refine ⟨hpending, found, ?_⟩
        rw [List.getElem?_append_left (List.getElem?_eq_some_iff.mp hfound).1, hfound]
    | answered status => trivial

theorem Placed.reply (hplaced : Placed history order other phase) (hother : other ≠ id)
    (res : Except ProposeError Response) :
    Placed (history ++ [.reply id res]) order other phase := by
  rcases phase with _ | phase
  · simpa [Placed] using hplaced
  · cases phase with
    | received => simpa [Placed] using hplaced
    | prepared => simpa [Placed] using hplaced
    | proposed term data =>
        obtain ⟨hnew, found, hcall, hencode⟩ := hplaced
        exact ⟨hnew, found, List.mem_append_left _ hcall, hencode⟩
    | committed position => simpa [Placed, hother] using hplaced
    | answered status => trivial

end Placed

/-- The log is the order in which the calls took place. -/
structure Linear (cluster : Cluster Node) (history : Proposals)
    (order : List (Nat × Command)) : Prop where
  wellFormed : WellFormed history
  linearizes : machine.Linearizes history order
  recorded : List.Forall₂ Recorded order cluster.log
  placed : ∀ id, Placed history order id ((cluster.handlers id).map Handler.phase)

theorem linear_initial : (initial : Cluster Node).Linear [] [] where
  wellFormed := wellFormed_nil
  linearizes := .nil
  recorded := .nil
  placed := fun _ => List.not_mem_nil

namespace Linear

variable {cluster : Cluster Node} {history : Proposals} {order : List (Nat × Command)}
  {id : Nat} {handler : Handler Node}

theorem of_phase (hlinear : cluster.Linear history order)
    (hhandler : cluster.handlers id = some handler) :
    Placed history order id (some handler.phase) := by
  have hplaced := hlinear.placed id
  rwa [hhandler] at hplaced

theorem placed_setPhase {phase : Phase} (hself : Placed history order id (some phase))
    (hothers : ∀ other, other ≠ id →
      Placed history order other ((cluster.handlers other).map Handler.phase))
    (other : Nat) :
    Placed history order other
      (((cluster.setPhase id handler phase).handlers other).map Handler.phase) := by
  by_cases hother : other = id
  · subst hother
    simpa [setPhase] using hself
  · simpa [setPhase, hother] using hothers other hother

theorem setPhase (hlinear : cluster.Linear history order) {phase : Phase}
    (hself : Placed history order id (some phase)) :
    (cluster.setPhase id handler phase).Linear history order where
  wellFormed := hlinear.wellFormed
  linearizes := hlinear.linearizes
  recorded := hlinear.recorded
  placed := placed_setPhase hself fun other _ => hlinear.placed other

theorem prepare (hlinear : cluster.Linear history order)
    (hhandler : cluster.handlers id = some handler) (hphase : handler.phase = .received) :
    (cluster.prepare id handler).Linear history order := by
  have hquiet := hlinear.of_phase hhandler
  rw [hphase] at hquiet
  unfold Cluster.prepare
  split
  · exact hlinear.setPhase trivial
  · exact hlinear.setPhase hquiet

theorem taken (hlinear : cluster.Linear history order) {cmd : Command}
    (hfresh : id ∉ callIDs history) {data : Bytes} (hencode : cmd.encode = .ok data)
    (term : Nat) :
    (cluster.setPhase id handler (.proposed term data)).Linear
      (history ++ [.call id cmd]) order where
  wellFormed := hlinear.wellFormed.call hfresh cmd
  linearizes := hlinear.linearizes.call hfresh cmd
  recorded := hlinear.recorded
  placed := by
    refine placed_setPhase ⟨?_, cmd, by simp, hencode⟩ fun other hother =>
      (hlinear.placed other).call hother cmd
    intro hmem
    obtain ⟨⟨_, found⟩, hfound, rfl⟩ := List.mem_map.mp hmem
    exact hfresh (mem_callIDs (hlinear.linearizes.called hfound))

theorem commit (hlinear : cluster.Linear history order)
    (hhandler : cluster.handlers id = some handler) {term : Nat} {data : Bytes}
    (hphase : handler.phase = .proposed term data) (index : UInt64) :
    ∃ order, (cluster.commit id handler term { index, data }).Linear history order := by
  have hplaced := hlinear.of_phase hhandler
  rw [hphase] at hplaced
  obtain ⟨hnew, cmd, hcalled, hencode⟩ := hplaced
  refine ⟨order ++ [(id, cmd)], hlinear.wellFormed,
    hlinear.linearizes.commit hcalled hnew, ?_, ?_⟩
  · exact List.rel_append hlinear.recorded (.cons ⟨rfl, hencode⟩ .nil)
  · refine placed_setPhase ⟨?_, cmd, ?_⟩ fun other hother =>
      (hlinear.placed other).commit hother cmd
    · intro hreplied
      obtain ⟨event, hevent, hid⟩ := List.mem_filterMap.mp hreplied
      cases event with
      | call => contradiction
      | reply other res =>
          cases hid
          exact hnew (hlinear.linearizes.mem_order_of_reply hevent)
    · rw [← hlinear.recorded.length_eq, List.getElem?_concat_length]

theorem answer (hlinear : cluster.Linear history order)
    (hhandler : cluster.handlers id = some handler) {position : Nat}
    (hphase : handler.phase = .committed position) {response : Response}
    (hresponse : cluster.responseAt position = some response) (status : Status) :
    (cluster.setPhase id handler (.answered status)).Linear
      (history ++ [.reply id (unwrapResponse response)]) order := by
  have hplaced := hlinear.of_phase hhandler
  rw [hphase] at hplaced
  obtain ⟨hpending, cmd, hfound⟩ := hplaced
  have hcalled := hlinear.linearizes.called (List.mem_of_getElem? hfound)
  exact {
    wellFormed := hlinear.wellFormed.reply (mem_callIDs hcalled) hpending _
    linearizes := hlinear.linearizes.reply hfound
      (resultAt_of_recorded hlinear.recorded hresponse)
    recorded := hlinear.recorded
    placed := placed_setPhase trivial fun other hother =>
      (hlinear.placed other).reply hother _ }

variable [DecidableEq Node] {next : Cluster Node} {event : ClusterEvent Node}

theorem step (hlinear : cluster.Linear history order)
    (hstep : Cluster.step cluster event = some next) :
    ∃ order, next.Linear (history ++ cluster.proposals event) order := by
  cases event with
  | elect node | stepDown node =>
      cases hstep
      refine ⟨order, ?_⟩
      simpa [proposals] using { hlinear with }
  | applyNext node =>
      simp only [Cluster.step] at hstep
      split_ifs at hstep
      cases hstep
      refine ⟨order, ?_⟩
      simpa [proposals] using { hlinear with }
  | arrive id node job =>
      obtain ⟨hfree, -, rfl⟩ := arrive_of_step hstep
      have hquiet := hlinear.placed id
      rw [hfree] at hquiet
      rw [proposals, List.append_nil]
      exact ⟨order, hlinear.setPhase hquiet⟩
  | prepare id =>
      obtain ⟨handler, hhandler, hphase, rfl⟩ := prepare_of_step hstep
      rw [proposals, List.append_nil]
      exact ⟨order, hlinear.prepare hhandler hphase⟩
  | propose id =>
      obtain ⟨handler, cmd, hhandler, hphase, hproposed⟩ := propose_of_step hstep
      have hfresh := hlinear.of_phase hhandler
      rw [hphase] at hfresh
      simp only [proposals, hhandler, hphase]
      cases hproposed with
      | refused err hrefused =>
          split
          · rename_i data term hencode hleads
            exact absurd hleads (hrefused data term hencode)
          · rw [List.append_nil]
            exact ⟨order, hlinear.setPhase trivial⟩
      | taken hencode hleads =>
          simp only [hencode, hleads]
          exact ⟨order, hlinear.taken hfresh hencode _⟩
  | commit id index =>
      obtain ⟨handler, term, data, hhandler, hphase, rfl⟩ := commit_of_step hstep
      rw [proposals, List.append_nil]
      exact hlinear.commit hhandler hphase index
  | answer id =>
      obtain ⟨handler, position, response, hhandler, hphase, hresponse, rfl⟩ :=
        answer_of_step hstep
      simp only [proposals, hhandler, hphase, hresponse, Option.toList_some, List.map_cons,
        List.map_nil]
      exact ⟨order, hlinear.answer hhandler hphase hresponse _⟩

end Linear

variable [DecidableEq Node]

/-- However requests, elections and lagging replicas interleave, what `propose` returns is
what one machine returns that takes the same calls one at a time, each between its start
and its end. -/
theorem proposals_linearizable {events : List (ClusterEvent Node)} {final : Cluster Node}
    (hexec : exec step initial events = some final) :
    WellFormed (trace step proposals initial events) ∧
      machine.Linearizable (trace step proposals initial events) := by
  obtain ⟨order, hlinear⟩ :
      ∃ order, final.Linear (trace step proposals initial events) order :=
    exec_traces (P := fun cluster history => ∃ order, cluster.Linear history order)
      (fun ⟨_, hlinear⟩ hstep => hlinear.step hstep) ⟨[], linear_initial⟩ hexec
  exact ⟨hlinear.wellFormed, order, hlinear.linearizes⟩

/-- Two clients create the same queue, and the second one's entry is committed first. -/
def racingCreations : List (ClusterEvent Bool) :=
  [.elect false,
    .arrive 0 false (.http (.queueCreation (lit "orders"))), .prepare 0, .propose 0,
    .arrive 1 false (.http (.queueCreation (lit "orders"))), .prepare 1, .propose 1,
    .commit 1 1, .commit 0 2, .applyNext false, .applyNext false, .answer 0, .answer 1]

theorem racing_creations_linearizable :
    callIDs (trace step proposals initial racingCreations) = [0, 1] ∧
      replyIDs (trace step proposals initial racingCreations) = [0, 1] ∧
      machine.Linearizable (trace step proposals initial racingCreations) := by
  obtain ⟨final, hexec⟩ : ∃ final, exec step initial racingCreations = some final :=
    Option.isSome_iff_exists.mp (by decide +kernel)
  exact ⟨by decide +kernel, by decide +kernel, (proposals_linearizable hexec).2⟩

end Cluster

end SimonMQ.Dist
