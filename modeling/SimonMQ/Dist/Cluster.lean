import Mathlib.Logic.Function.Basic
import SimonMQ.Dist.Server
import SimonMQ.Dist.Snapshot
import SimonMQ.Transition

namespace SimonMQ.Dist

open SimonMQ.Go
open SimonMQ.Go.Json
open SimonMQ.Go.Utf8
open SimonMQ.Transition

/-! A cluster of nodes over one replicated log.  Of Raft the model keeps what its
users may rely on: one sequence of committed entries with non-decreasing terms,
applied in order on each node, and proposals answered once they are committed and
applied where they were made.  A node may lead while its state machine still lags
behind the log. -/

/-- What makes a node propose: a client's request, or a worker's delivery result. -/
inductive Job
  | http (request : Request)
  | ack (queueName msgID : GoString) (subNames : List GoString)
  deriving DecidableEq, Repr

namespace Job

def command (store : InMemoryStorage) : Job → Except Status Command
  | http request => request.command store
  | ack queueName msgID subNames => .ok (.newAck queueName msgID subNames)

def successStatus : Job → Status
  | http request => request.successStatus
  | ack _ _ _ => .ok

theorem isSuccess_of_command_error {store : InMemoryStorage} {job : Job}
    {status : Status} (hrefused : job.command store = .error status) :
    status.isSuccess = false := by
  cases job with
  | http request => exact Request.isSuccess_of_command_error hrefused
  | ack queueName msgID subNames => cases hrefused

/-- Only HTTP requests go through `requireLeader`. -/
def requiresLeader : Job → Bool
  | http _ => true
  | ack _ _ _ => false

def isPublish : Job → Bool
  | http (.enqueue _ _ _) => true
  | _ => false

def Puts (job : Job) (queueName : GoString) (policy : SubPolicy) : Prop :=
  ∀ store, job.command store = .ok (.newPutSubPolicy queueName policy)

/-- The job asks for the subscriber, or its whole queue, to be removed.  Names are
compared the way the log carries them. -/
def drops (queueName subName : GoString) : Job → Bool
  | http (.queueDeletion deleted) => toValid deleted = toValid queueName
  | http (.subPolicyDeletion queue deleted) =>
      toValid queue = toValid queueName ∧ toValid deleted = toValid subName
  | _ => false

end Job

inductive Phase
  | received
  | prepared (cmd : Command)
  | proposed (term : Nat) (data : Bytes)
  | committed (position : Nat)
  | answered (status : Status)

def Phase.isAcknowledged : Phase → Bool
  | answered status => status.isSuccess
  | _ => false

/-- A call in progress on a node.  `arrivedAt` counts the entries that were
committed when it arrived. -/
structure Handler (Node : Type) where
  node : Node
  job : Job
  arrivedAt : Nat
  phase : Phase

structure CommittedEntry where
  term : Nat
  handler : Nat
  entry : LogEntry

structure Cluster (Node : Type) where
  log : List CommittedEntry
  applied : Node → Nat
  leads : Node → Option Nat
  term : Nat
  handlers : Nat → Option (Handler Node)

inductive ClusterEvent (Node : Type)
  | elect (node : Node)
  | stepDown (node : Node)
  | applyNext (node : Node)
  | arrive (id : Nat) (node : Node) (job : Job)
  | prepare (id : Nat)
  | propose (id : Nat)
  | commit (id : Nat) (index : UInt64)
  | answer (id : Nat)

def storeAfter (log : List CommittedEntry) : InMemoryStorage :=
  (FSM.run .empty (log.map CommittedEntry.entry)).2

namespace Cluster

variable {Node : Type}

def initial : Cluster Node where
  log := []
  applied _ := 0
  leads _ := none
  term := 0
  handlers _ := none

def store (cluster : Cluster Node) (node : Node) : InMemoryStorage :=
  storeAfter (cluster.log.take (cluster.applied node))

def setPhase (cluster : Cluster Node) (id : Nat) (handler : Handler Node)
    (phase : Phase) : Cluster Node :=
  { cluster with
    handlers := Function.update cluster.handlers id (some { handler with phase }) }

/-- A call until it proposes: for a publish, this is the read of the subscriber
list. -/
def prepare (cluster : Cluster Node) (id : Nat) (handler : Handler Node) :
    Cluster Node :=
  match handler.job.command (cluster.store handler.node) with
  | .error status => cluster.setPhase id handler (.answered status)
  | .ok cmd => cluster.setPhase id handler (.prepared cmd)

/-- `propose` up to the wait: Raft takes the entry only from a leader. -/
def propose (cluster : Cluster Node) (id : Nat) (handler : Handler Node)
    (cmd : Command) : Cluster Node :=
  match cmd.encode with
  | .error err => cluster.setPhase id handler (.answered (writeError (.encode err)))
  | .ok data =>
      match cluster.leads handler.node with
      | none => cluster.setPhase id handler (.answered (writeError .raft))
      | some term => cluster.setPhase id handler (.proposed term data)

def commit (cluster : Cluster Node) (id : Nat) (handler : Handler Node)
    (term : Nat) (entry : LogEntry) : Cluster Node :=
  { cluster.setPhase id handler (.committed cluster.log.length) with
    log := cluster.log ++ [{ term, handler := id, entry }] }

def responseAt (cluster : Cluster Node) (position : Nat) : Option Response :=
  (cluster.log[position]?).map fun committed =>
    (FSM.apply (storeAfter (cluster.log.take position)) committed.entry).1

section

variable [DecidableEq Node]

def step (cluster : Cluster Node) : ClusterEvent Node → Option (Cluster Node)
  | .elect node =>
      some { cluster with
        term := cluster.term + 1
        leads := Function.update cluster.leads node (some (cluster.term + 1)) }
  | .stepDown node =>
      some { cluster with leads := Function.update cluster.leads node none }
  | .applyNext node =>
      if cluster.applied node < cluster.log.length then
        some { cluster with
          applied := Function.update cluster.applied node (cluster.applied node + 1) }
      else none
  | .arrive id node job =>
      if cluster.handlers id |>.isSome then none
      else if job.requiresLeader && (cluster.leads node).isNone then none
      else
        some (cluster.setPhase id
          { node, job, arrivedAt := cluster.log.length, phase := .received } .received)
  | .prepare id =>
      match cluster.handlers id with
      | some handler =>
          match handler.phase with
          | .received => some (cluster.prepare id handler)
          | _ => none
      | none => none
  | .propose id =>
      match cluster.handlers id with
      | some handler =>
          match handler.phase with
          | .prepared cmd => some (cluster.propose id handler cmd)
          | _ => none
      | none => none
  | .commit id index =>
      match cluster.handlers id with
      | some handler =>
          match handler.phase with
          | .proposed term data =>
              if ∀ committed ∈ cluster.log, committed.term ≤ term then
                some (cluster.commit id handler term { index, data })
              else none
          | _ => none
      | none => none
  | .answer id =>
      match cluster.handlers id with
      | some handler =>
          match handler.phase with
          | .committed position =>
              if position < cluster.applied handler.node then
                (cluster.responseAt position).map fun response =>
                  cluster.setPhase id handler
                    (.answered (respond handler.job.successStatus response))
              else none
          | _ => none
      | none => none

inductive Stepped (cluster : Cluster Node) : ClusterEvent Node → Cluster Node → Prop
  | quiet {event : ClusterEvent Node} {next : Cluster Node}
      (hlog : next.log = cluster.log) (hhandlers : next.handlers = cluster.handlers)
      (happlied : ∀ node, next.applied node = cluster.applied node ∨
        next.applied node ≤ cluster.log.length) :
      Stepped cluster event next
  | arrive {id : Nat} {node : Node} {job : Job} (hfree : cluster.handlers id = none) :
      Stepped cluster (.arrive id node job)
        (cluster.setPhase id
          { node, job, arrivedAt := cluster.log.length, phase := .received } .received)
  | prepare {id : Nat} {handler : Handler Node}
      (hhandler : cluster.handlers id = some handler) :
      Stepped cluster (.prepare id) (cluster.prepare id handler)
  | propose {id : Nat} {handler : Handler Node} {cmd : Command}
      (hhandler : cluster.handlers id = some handler)
      (hphase : handler.phase = .prepared cmd) :
      Stepped cluster (.propose id) (cluster.propose id handler cmd)
  | commit {id term : Nat} {index : UInt64} {data : Bytes} {handler : Handler Node}
      (hhandler : cluster.handlers id = some handler)
      (hphase : handler.phase = .proposed term data) :
      Stepped cluster (.commit id index)
        (cluster.commit id handler term { index, data })
  | answer {id position : Nat} {handler : Handler Node} {response : Response}
      (hhandler : cluster.handlers id = some handler)
      (hphase : handler.phase = .committed position)
      (hresponse : cluster.responseAt position = some response) :
      Stepped cluster (.answer id)
        (cluster.setPhase id handler
          (.answered (respond handler.job.successStatus response)))

theorem stepped_of_step {cluster next : Cluster Node} {event : ClusterEvent Node}
    (hstep : step cluster event = some next) : Stepped cluster event next := by
  cases event with
  | elect node | stepDown node =>
      cases hstep
      exact .quiet rfl rfl fun _ => .inl rfl
  | applyNext node =>
      simp only [step] at hstep
      split_ifs at hstep with hbehind
      cases hstep
      refine .quiet rfl rfl fun other => ?_
      by_cases hother : other = node
      · subst hother
        right
        simpa [Nat.succ_le_iff] using hbehind
      · left
        simp [hother]
  | arrive id node job =>
      simp only [step] at hstep
      split_ifs at hstep with hused
      cases hstep
      exact .arrive (by simpa using hused)
  | prepare id =>
      simp only [step] at hstep
      split at hstep
      · split at hstep
        · cases hstep
          exact .prepare ‹_›
        · contradiction
      · contradiction
  | propose id =>
      simp only [step] at hstep
      split at hstep
      · split at hstep
        · cases hstep
          exact .propose ‹_› ‹_›
        · contradiction
      · contradiction
  | commit id index =>
      simp only [step] at hstep
      split at hstep
      · split at hstep
        · split_ifs at hstep
          cases hstep
          exact .commit ‹_› ‹_›
        · contradiction
      · contradiction
  | answer id =>
      simp only [step] at hstep
      split at hstep
      · split at hstep
        · split_ifs at hstep
          obtain ⟨response, hresponse, rfl⟩ := Option.map_eq_some_iff.mp hstep
          exact .answer ‹_› ‹_› hresponse
        · contradiction
      · contradiction

end

/-! Where the committed commands come from. -/

/-- A call built this command from a state of the log that, for a publish, includes
everything committed before it arrived. -/
def Prepared (cluster : Cluster Node) (handler : Handler Node) (cmd : Command) : Prop :=
  ∃ count ≤ cluster.log.length,
    (handler.job.isPublish = true → handler.arrivedAt ≤ count) ∧
    handler.job.command (storeAfter (cluster.log.take count)) = .ok cmd

def Carries (cluster : Cluster Node) (handler : Handler Node) (position : Nat) : Prop :=
  ∃ committed cmd, cluster.log[position]? = some committed ∧
    cluster.Prepared handler cmd ∧ cmd.encode = .ok committed.entry.data

def Accepted (cluster : Cluster Node) (position : Nat) : Prop :=
  ∃ response, cluster.responseAt position = some response ∧
    unwrapResponse response = .ok response

def PhaseSound (cluster : Cluster Node) (handler : Handler Node) : Prop :=
  match handler.phase with
  | .received => True
  | .prepared cmd => cluster.Prepared handler cmd
  | .proposed _ data => ∃ cmd, cluster.Prepared handler cmd ∧ cmd.encode = .ok data
  | .committed position => cluster.Carries handler position
  | .answered status => status.isSuccess = true →
      ∃ position, cluster.Carries handler position ∧ cluster.Accepted position

structure Sound (cluster : Cluster Node) : Prop where
  applied_le : ∀ node, cluster.applied node ≤ cluster.log.length
  log : ∀ committed ∈ cluster.log, ∃ handler cmd,
    cluster.handlers committed.handler = some handler ∧
    cluster.Prepared handler cmd ∧ cmd.encode = .ok committed.entry.data
  phase : ∀ id handler, cluster.handlers id = some handler → cluster.PhaseSound handler

theorem Prepared.mono {cluster next : Cluster Node} (hlog : cluster.log <+: next.log)
    {handler : Handler Node} {cmd : Command} (hprepared : cluster.Prepared handler cmd) :
    next.Prepared handler cmd := by
  obtain ⟨count, hcount, harrived, hcommand⟩ := hprepared
  obtain ⟨suffix, hsuffix⟩ := hlog
  refine ⟨count, ?_, harrived, ?_⟩
  · rw [← hsuffix, List.length_append]
    omega
  · rw [← hsuffix, List.take_append_of_le_length hcount]
    exact hcommand

theorem getElem?_of_prefix {cluster next : Cluster Node}
    (hlog : cluster.log <+: next.log) {position : Nat} {committed : CommittedEntry}
    (hfound : cluster.log[position]? = some committed) :
    next.log[position]? = some committed := by
  obtain ⟨suffix, hsuffix⟩ := hlog
  rw [← hsuffix]
  exact List.getElem?_append_left (List.getElem?_eq_some_iff.mp hfound).1 ▸ hfound

theorem Carries.mono {cluster next : Cluster Node} (hlog : cluster.log <+: next.log)
    {handler : Handler Node} {position : Nat}
    (hcarries : cluster.Carries handler position) : next.Carries handler position := by
  obtain ⟨committed, cmd, hfound, hprepared, hencode⟩ := hcarries
  exact ⟨committed, cmd, getElem?_of_prefix hlog hfound, hprepared.mono hlog, hencode⟩

theorem Accepted.mono {cluster next : Cluster Node} (hlog : cluster.log <+: next.log)
    {position : Nat} (haccepted : cluster.Accepted position) :
    next.Accepted position := by
  obtain ⟨response, hresponse, hok⟩ := haccepted
  obtain ⟨committed, hfound, hreply⟩ := Option.map_eq_some_iff.mp hresponse
  have hposition := (List.getElem?_eq_some_iff.mp hfound).1
  have hfound := getElem?_of_prefix hlog hfound
  obtain ⟨suffix, hsuffix⟩ := hlog
  refine ⟨response, ?_, hok⟩
  rw [responseAt, hfound, ← hsuffix,
    List.take_append_of_le_length (Nat.le_of_lt hposition), Option.map_some, hreply]

theorem PhaseSound.mono {cluster next : Cluster Node} (hlog : cluster.log <+: next.log)
    {handler : Handler Node} (hsound : cluster.PhaseSound handler) :
    next.PhaseSound handler := by
  obtain ⟨node, job, arrivedAt, phase⟩ := handler
  cases phase with
  | received => trivial
  | prepared cmd => exact Prepared.mono hlog hsound
  | proposed term data =>
      obtain ⟨cmd, hprepared, hencode⟩ := hsound
      exact ⟨cmd, hprepared.mono hlog, hencode⟩
  | committed position => exact Carries.mono hlog hsound
  | answered status =>
      intro hsuccess
      obtain ⟨position, hcarries, haccepted⟩ := hsound hsuccess
      exact ⟨position, hcarries.mono hlog, haccepted.mono hlog⟩

theorem Sound.advance {cluster next : Cluster Node} (hsound : cluster.Sound)
    {id : Nat} {handler : Handler Node} {phase : Phase}
    (hsame : ∀ old, cluster.handlers id = some old →
      old.job = handler.job ∧ old.arrivedAt = handler.arrivedAt)
    (hhandlers : next.handlers =
      Function.update cluster.handlers id (some { handler with phase }))
    (happlied : next.applied = cluster.applied)
    (hlog : cluster.log <+: next.log)
    (hnew : ∀ committed ∈ next.log, committed ∉ cluster.log →
      committed.handler = id ∧
        ∃ cmd, next.Prepared handler cmd ∧ cmd.encode = .ok committed.entry.data)
    (hphase : next.PhaseSound { handler with phase }) : next.Sound where
  applied_le := by
    intro node
    rw [happlied]
    exact Nat.le_trans (hsound.applied_le node) hlog.length_le
  log := by
    intro committed hmem
    by_cases hold : committed ∈ cluster.log
    · obtain ⟨found, cmd, hfound, hprepared, hencode⟩ := hsound.log committed hold
      have hprepared := hprepared.mono hlog
      by_cases hid : committed.handler = id
      · obtain ⟨hjob, harrived⟩ := hsame found (hid ▸ hfound)
        refine ⟨{ handler with phase }, cmd, ?_, ?_, hencode⟩
        · simp [hhandlers, hid]
        · simpa only [Prepared, hjob, harrived] using hprepared
      · refine ⟨found, cmd, ?_, hprepared, hencode⟩
        simpa [hhandlers, hid] using hfound
    · obtain ⟨hid, cmd, hprepared, hencode⟩ := hnew committed hmem hold
      refine ⟨{ handler with phase }, cmd, ?_, hprepared, hencode⟩
      simp [hhandlers, hid]
  phase := by
    intro other found hfound
    by_cases hother : other = id
    · subst hother
      rw [hhandlers, Function.update_self] at hfound
      cases hfound
      exact hphase
    · rw [hhandlers, Function.update_of_ne hother] at hfound
      exact (hsound.phase other found hfound).mono hlog

theorem Sound.setPhase {cluster : Cluster Node} (hsound : cluster.Sound) {id : Nat}
    {handler : Handler Node} {phase : Phase}
    (hsame : ∀ old, cluster.handlers id = some old →
      old.job = handler.job ∧ old.arrivedAt = handler.arrivedAt)
    (hphase : cluster.PhaseSound { handler with phase }) :
    (cluster.setPhase id handler phase).Sound :=
  hsound.advance hsame rfl rfl (List.prefix_refl _)
    (fun _ hmem hold => absurd hmem hold) hphase

/-- The condition under which a publish reads a current subscriber list: its node
has applied everything that was committed when the publish arrived. -/
def CaughtUp (cluster : Cluster Node) : ClusterEvent Node → Prop
  | .prepare id => ∀ handler ∈ cluster.handlers id,
      handler.job.isPublish = true → handler.arrivedAt ≤ cluster.applied handler.node
  | _ => True

instance (cluster : Cluster Node) : ∀ event, Decidable (cluster.CaughtUp event)
  | .prepare id => inferInstanceAs (Decidable (∀ handler ∈ cluster.handlers id,
      handler.job.isPublish = true → handler.arrivedAt ≤ cluster.applied handler.node))
  | .elect _ | .stepDown _ | .applyNext _ | .arrive _ _ _ | .propose _ | .commit _ _
  | .answer _ => isTrue trivial

theorem sound_initial : (initial : Cluster Node).Sound where
  applied_le := fun _ => Nat.le_refl 0
  log := fun committed hmem => absurd hmem List.not_mem_nil
  phase := fun id handler hfound => by cases hfound

theorem same_call {cluster : Cluster Node} {id : Nat} {handler : Handler Node}
    (hhandler : cluster.handlers id = some handler) :
    ∀ old, cluster.handlers id = some old →
      old.job = handler.job ∧ old.arrivedAt = handler.arrivedAt := by
  intro old hold
  cases hhandler.symm.trans hold
  exact ⟨rfl, rfl⟩

theorem phaseSound_of_failed {cluster : Cluster Node} {handler : Handler Node}
    {status : Status} (hfailed : status.isSuccess = false) :
    cluster.PhaseSound { handler with phase := .answered status } := by
  intro hsuccess
  rw [hfailed] at hsuccess
  contradiction

theorem Sound.prepare {cluster : Cluster Node} (hsound : cluster.Sound) {id : Nat}
    {handler : Handler Node} (hhandler : cluster.handlers id = some handler)
    (hcaught : handler.job.isPublish = true →
      handler.arrivedAt ≤ cluster.applied handler.node) :
    (cluster.prepare id handler).Sound := by
  unfold Cluster.prepare
  cases hcommand : handler.job.command (cluster.store handler.node) with
  | error status =>
      exact hsound.setPhase (same_call hhandler)
        (phaseSound_of_failed (Job.isSuccess_of_command_error hcommand))
  | ok cmd =>
      exact hsound.setPhase (same_call hhandler)
        ⟨cluster.applied handler.node, hsound.applied_le handler.node, hcaught, hcommand⟩

theorem Sound.propose {cluster : Cluster Node} (hsound : cluster.Sound) {id : Nat}
    {handler : Handler Node} (hhandler : cluster.handlers id = some handler)
    {cmd : Command} (hprepared : cluster.Prepared handler cmd) :
    (cluster.propose id handler cmd).Sound := by
  unfold Cluster.propose
  cases hencode : cmd.encode with
  | error err =>
      exact hsound.setPhase (same_call hhandler)
        (phaseSound_of_failed (isSuccess_writeError _))
  | ok data =>
      cases cluster.leads handler.node with
      | none =>
          exact hsound.setPhase (same_call hhandler)
            (phaseSound_of_failed (isSuccess_writeError _))
      | some term =>
          exact hsound.setPhase (same_call hhandler) ⟨cmd, hprepared, hencode⟩

theorem Sound.commit {cluster : Cluster Node} (hsound : cluster.Sound) {id : Nat}
    {handler : Handler Node} (hhandler : cluster.handlers id = some handler)
    {cmd : Command} (hprepared : cluster.Prepared handler cmd) {entry : LogEntry}
    (hencode : cmd.encode = .ok entry.data) (term : Nat) :
    (cluster.commit id handler term entry).Sound := by
  have hlog : cluster.log <+: (cluster.commit id handler term entry).log :=
    List.prefix_append _ _
  refine hsound.advance (same_call hhandler) rfl rfl hlog ?_ ?_
  · intro committed hmem hold
    rcases List.mem_append.mp hmem with hmem | hmem
    · contradiction
    · cases List.mem_singleton.mp hmem
      exact ⟨rfl, cmd, hprepared.mono hlog, hencode⟩
  · exact ⟨{ term, handler := id, entry }, cmd,
      List.getElem?_concat_length, hprepared.mono hlog, hencode⟩

theorem Sound.of_stepped {cluster next : Cluster Node} {event : ClusterEvent Node}
    (hsound : cluster.Sound) (hcaught : cluster.CaughtUp event)
    (hstepped : Stepped cluster event next) : next.Sound := by
  cases hstepped with
  | quiet hlog hhandlers happlied =>
      have hprefix : cluster.log <+: next.log := by rw [hlog]
      refine ⟨fun node => ?_, fun committed hmem => ?_, fun id handler hfound => ?_⟩
      · rw [hlog]
        rcases happlied node with hsame | hbound
        · rw [hsame]
          exact hsound.applied_le node
        · exact hbound
      · rw [hlog] at hmem
        obtain ⟨handler, cmd, hfound, hprepared, hencode⟩ := hsound.log committed hmem
        exact ⟨handler, cmd, hhandlers ▸ hfound, hprepared.mono hprefix, hencode⟩
      · rw [hhandlers] at hfound
        exact (hsound.phase id handler hfound).mono hprefix
  | arrive hfree =>
      refine hsound.setPhase ?_ trivial
      intro old hold
      rw [hfree] at hold
      contradiction
  | prepare hhandler => exact hsound.prepare hhandler (hcaught _ hhandler)
  | propose hhandler hphase =>
      have hprepared := hsound.phase _ _ hhandler
      simp only [PhaseSound, hphase] at hprepared
      exact hsound.propose hhandler hprepared
  | commit hhandler hphase =>
      have hproposed := hsound.phase _ _ hhandler
      simp only [PhaseSound, hphase] at hproposed
      obtain ⟨cmd, hprepared, hencode⟩ := hproposed
      exact hsound.commit hhandler hprepared hencode _
  | answer hhandler hphase hresponse =>
      have hcarries := hsound.phase _ _ hhandler
      simp only [PhaseSound, hphase] at hcarries
      refine hsound.setPhase (same_call hhandler) fun hsuccess => ?_
      exact ⟨_, hcarries, _, hresponse, unwrapResponse_of_isSuccess hsuccess⟩

theorem accepted_of_isAcknowledged {cluster : Cluster Node} {handler : Handler Node}
    (hsound : cluster.PhaseSound handler)
    (hacknowledged : handler.phase.isAcknowledged = true) :
    ∃ position, cluster.Carries handler position ∧ cluster.Accepted position := by
  obtain ⟨node, job, arrivedAt, phase⟩ := handler
  cases phase with
  | answered status => exact hsound hacknowledged
  | received | prepared | proposed | committed => contradiction

/-- Steps only ever extend the log, and a call keeps its job and arrival time. -/
structure Extends (cluster next : Cluster Node) : Prop where
  log : cluster.log <+: next.log
  handlers : ∀ id handler, cluster.handlers id = some handler →
    ∃ later, next.handlers id = some later ∧ later.job = handler.job ∧
      later.arrivedAt = handler.arrivedAt

theorem Extends.refl (cluster : Cluster Node) : Extends cluster cluster where
  log := List.prefix_refl _
  handlers := fun _ handler hfound => ⟨handler, hfound, rfl, rfl⟩

theorem Extends.trans {first second third : Cluster Node} (hleft : Extends first second)
    (hright : Extends second third) : Extends first third where
  log := hleft.log.trans hright.log
  handlers := by
    intro id handler hfound
    obtain ⟨later, hlater, hjob, harrived⟩ := hleft.handlers id handler hfound
    obtain ⟨last, hlast, hjob', harrived'⟩ := hright.handlers id later hlater
    exact ⟨last, hlast, hjob'.trans hjob, harrived'.trans harrived⟩

theorem Extends.advance {cluster next : Cluster Node} {id : Nat}
    {handler : Handler Node} {phase : Phase}
    (hsame : ∀ old, cluster.handlers id = some old →
      old.job = handler.job ∧ old.arrivedAt = handler.arrivedAt)
    (hhandlers : next.handlers =
      Function.update cluster.handlers id (some { handler with phase }))
    (hlog : cluster.log <+: next.log) : Extends cluster next where
  log := hlog
  handlers := by
    intro other found hfound
    by_cases hother : other = id
    · subst hother
      obtain ⟨hjob, harrived⟩ := hsame found hfound
      exact ⟨{ handler with phase }, by simp [hhandlers], hjob.symm, harrived.symm⟩
    · exact ⟨found, by simpa [hhandlers, hother] using hfound, rfl, rfl⟩

theorem extends_of_stepped {cluster next : Cluster Node} {event : ClusterEvent Node}
    (hstepped : Stepped cluster event next) : Extends cluster next := by
  cases hstepped with
  | quiet hlog hhandlers happlied =>
      exact ⟨by rw [hlog],
        fun id handler hfound => ⟨handler, hhandlers ▸ hfound, rfl, rfl⟩⟩
  | arrive hfree =>
      refine .advance ?_ rfl (List.prefix_refl _)
      intro old hold
      rw [hfree] at hold
      contradiction
  | prepare hhandler =>
      unfold Cluster.prepare
      split <;> exact .advance (same_call hhandler) rfl (List.prefix_refl _)
  | propose hhandler hphase =>
      unfold Cluster.propose
      split
      · exact .advance (same_call hhandler) rfl (List.prefix_refl _)
      · split <;> exact .advance (same_call hhandler) rfl (List.prefix_refl _)
  | commit hhandler hphase =>
      exact .advance (same_call hhandler) rfl (List.prefix_append _ _)
  | answer hhandler hphase hresponse =>
      exact .advance (same_call hhandler) rfl (List.prefix_refl _)

theorem handler_origin {cluster next : Cluster Node} {event : ClusterEvent Node}
    (hstepped : Stepped cluster event next) {id : Nat} {handler : Handler Node}
    (hhandler : next.handlers id = some handler) :
    (∃ earlier, cluster.handlers id = some earlier ∧ earlier.job = handler.job) ∨
      ∃ node, event = .arrive id node handler.job := by
  have hupdated : ∀ {changed : Nat} {earlier : Handler Node} {phase : Phase},
      cluster.handlers changed = some earlier →
      Function.update cluster.handlers changed (some { earlier with phase }) id =
        some handler →
      ∃ found, cluster.handlers id = some found ∧ found.job = handler.job := by
    intro changed earlier phase hearlier hlookup
    by_cases hid : id = changed
    · subst hid
      rw [Function.update_self] at hlookup
      cases hlookup
      exact ⟨earlier, hearlier, rfl⟩
    · rw [Function.update_of_ne hid] at hlookup
      exact ⟨handler, hlookup, rfl⟩
  cases hstepped with
  | quiet hlog hhandlers happlied => exact .inl ⟨handler, hhandlers ▸ hhandler, rfl⟩
  | @arrive arrived node job hfree =>
      by_cases hid : id = arrived
      · subst hid
        simp only [setPhase, Function.update_self] at hhandler
        cases hhandler
        exact .inr ⟨node, rfl⟩
      · simp only [setPhase, Function.update_of_ne hid] at hhandler
        exact .inl ⟨handler, hhandler, rfl⟩
  | prepare hearlier =>
      unfold Cluster.prepare at hhandler
      split at hhandler <;> exact .inl (hupdated hearlier hhandler)
  | propose hearlier hphase =>
      unfold Cluster.propose at hhandler
      split at hhandler
      · exact .inl (hupdated hearlier hhandler)
      · split at hhandler <;> exact .inl (hupdated hearlier hhandler)
  | commit hearlier hphase => exact .inl (hupdated hearlier hhandler)
  | answer hearlier hphase hresponse => exact .inl (hupdated hearlier hhandler)

end Cluster

end SimonMQ.Dist
