import SimonMQ.Dist.Exchange

namespace SimonMQ.Dist

open SimonMQ.Go
open SimonMQ.Transition

/-! What the outcome of a write says about the replicated log. -/

theorem Reply.not_mayCommit_of_isSuccess {reply : Reply} (hsuccess : reply.isSuccess = true) :
    reply.mayCommit = false := by
  cases reply with
  | answered status leader body =>
      simp only [isSuccess, Bool.and_eq_true, decide_eq_true_eq] at hsuccess
      simp only [mayCommit, beq_eq_false_iff_ne]
      omega
  | dialFailed err | lost err => contradiction

theorem Status.isSuccess_of_code {status : Status} {leader : GoString} {body : Bytes}
    (hsuccess : (Reply.answered status.code leader body).isSuccess = true) :
    status.isSuccess = true := by
  cases status <;> first | rfl | contradiction

theorem Status.failure_of_code {status : Status} {leader : GoString} {body : Bytes}
    (hfailed : (Reply.answered status.code leader body).isSuccess = false) :
    status.isSuccess = false := by
  cases status <;> first | rfl | contradiction

namespace Cluster

variable {Node : Type}

/-- Steps also leave a call alone once it has its answer. -/
structure Follows (cluster next : Cluster Node) : Prop extends Extends cluster next where
  answered : ∀ {id handler status}, cluster.handlers id = some handler →
    handler.phase = .answered status → next.handlers id = some handler

theorem Follows.refl (cluster : Cluster Node) : cluster.Follows cluster where
  toExtends := .refl cluster
  answered := fun hhandler _ => hhandler

variable [DecidableEq Node] {cluster next : Cluster Node} {event : ClusterEvent Node}

theorem answered_of_step (hstep : step cluster event = some next) {id : Nat}
    {handler : Handler Node} (hhandler : cluster.handlers id = some handler) {status : Status}
    (hphase : handler.phase = .answered status) : next.handlers id = some handler := by
  have hother : ∀ {changed : Nat} {found : Handler Node} {phase : Phase},
      cluster.handlers changed = some found → found.phase ≠ .answered status →
      (cluster.setPhase changed found phase).handlers id = some handler := by
    intro changed found phase hfound hdiffers
    by_cases hid : id = changed
    · subst hid
      cases hfound.symm.trans hhandler
      exact absurd hphase hdiffers
    · simpa [setPhase, hid] using hhandler
  cases event with
  | elect node | stepDown node =>
      cases hstep
      exact hhandler
  | applyNext node =>
      simp only [step] at hstep
      split_ifs at hstep
      cases hstep
      exact hhandler
  | arrive arrived node job =>
      obtain ⟨hfree, -, rfl⟩ := arrive_of_step hstep
      by_cases hid : id = arrived
      · subst hid
        rw [hfree] at hhandler
        contradiction
      · simpa [setPhase, hid] using hhandler
  | prepare changed =>
      obtain ⟨found, hfound, hreceived, rfl⟩ := prepare_of_step hstep
      unfold Cluster.prepare
      split <;> exact hother hfound (by simp [hreceived])
  | propose changed =>
      obtain ⟨found, cmd, hfound, hprepared, hproposed⟩ := propose_of_step hstep
      cases hproposed with
      | refused | taken => exact hother hfound (by simp [hprepared])
  | commit changed index =>
      obtain ⟨found, term, data, hfound, hproposed, rfl⟩ := commit_of_step hstep
      exact hother hfound (by simp [hproposed])
  | answer changed =>
      obtain ⟨found, position, response, hfound, hcommitted, -, rfl⟩ := answer_of_step hstep
      exact hother hfound (by simp [hcommitted])

theorem follows_of_step (hstep : step cluster event = some next) : Follows cluster next where
  toExtends := extends_of_stepped (stepped_of_step hstep)
  answered := fun hhandler hphase => answered_of_step hstep hhandler hphase

end Cluster

variable {Node : Type}

/-- The call is one for this write, and came in after the write had started. -/
def Write.Reached (write : Write) (startedAt : Nat) (cluster : Cluster Node) (id : Nat) :
    Prop :=
  ∃ handler uuid, cluster.handlers id = some handler ∧
    handler.job = .http (write.request uuid) ∧ startedAt ≤ handler.arrivedAt

structure Trial.Sound (trial : Trial) (write : Write) (startedAt : Nat)
    (cluster : Cluster Node) : Prop where
  reached : ∀ {id}, trial.handler = some id → write.Reached startedAt cluster id
  served : trial.reply.isSuccess = true → ∃ id, trial.handler = some id
  told : ∀ {id}, trial.handler = some id → trial.reply.mayCommit = false →
    ∃ handler status body, cluster.handlers id = some handler ∧
      handler.phase = .answered status ∧ trial.reply = .answered status.code [] body

structure Writing.Open (writing : Writing) (trials : List Trial) : Prop where
  continues : ∀ trial ∈ trials, trial.reply.continues = true
  tracks : writing.mayHaveCommitted = true ↔ ∃ trial ∈ trials, trial.reply.mayCommit = true

structure Result.Concludes (res : Result) (trials : List Trial) : Prop where
  accepted : res.outcome = .accepted → ∃ trial ∈ trials, trial.reply.isSuccess = true
  rejected : res.outcome = .rejected →
    (∀ trial ∈ trials, trial.reply.isSuccess = false) ∧
      ((∀ trial ∈ trials.dropLast, trial.reply.mayCommit = false) →
        ∀ trial ∈ trials, trial.reply.mayCommit = false)

section Rounds

variable {writing next : Writing} {trials : List Trial} {ended : Trial}

theorem Writing.Open.concat (hopen : writing.Open trials)
    (hcontinues : ended.reply.continues = true)
    (hmay : next.mayHaveCommitted = (writing.mayHaveCommitted || ended.reply.mayCommit)) :
    next.Open (trials ++ [ended]) where
  continues := by
    intro trial hmem
    rcases List.mem_append.mp hmem with hold | hlast
    · exact hopen.continues trial hold
    · cases List.mem_singleton.mp hlast
      exact hcontinues
  tracks := by
    rw [hmay, Bool.or_eq_true, hopen.tracks]
    simp [or_and_right, exists_or]

theorem Writing.Open.concludes (hopen : writing.Open trials) :
    writing.finish.Concludes trials where
  accepted := by
    intro haccepted
    rw [Writing.outcome_finish] at haccepted
    split at haccepted <;> contradiction
  rejected := by
    intro hrejected
    rw [Writing.outcome_finish] at hrejected
    split at hrejected
    · contradiction
    · rename_i hnone
      rw [hopen.tracks] at hnone
      push Not at hnone
      refine ⟨?_, fun _ trial hmem => by simpa using hnone trial hmem⟩
      intro trial hmem
      have hcontinues := hopen.continues trial hmem
      simp only [Reply.continues, Bool.and_eq_true, Bool.not_eq_true'] at hcontinues
      exact hcontinues.1

theorem Writing.Open.refused (hopen : writing.Open trials)
    (hrefusal : ended.reply.isRefusal = true) {res : Result}
    (houtcome : res.outcome = .rejected) : res.Concludes (trials ++ [ended]) where
  accepted := fun haccepted => by simp [houtcome] at haccepted
  rejected := by
    intro _
    rw [List.dropLast_concat]
    constructor
    · intro trial hmem
      rcases List.mem_append.mp hmem with hold | hlast
      · have hcontinues := hopen.continues trial hold
        simp only [Reply.continues, Bool.and_eq_true, Bool.not_eq_true'] at hcontinues
        exact hcontinues.1
      · cases List.mem_singleton.mp hlast
        exact Reply.not_isSuccess_of_isRefusal hrefusal
    · intro hearlier trial hmem
      rcases List.mem_append.mp hmem with hold | hlast
      · exact hearlier trial hold
      · cases List.mem_singleton.mp hlast
        simpa using Reply.not_mayCommit_of_isRefusal hrefusal

end Rounds

namespace Writer

def PhaseSound (writer : Writer) (cluster : Cluster Node) : Prop :=
  match writer.phase with
  | .sending => writer.writing.Open writer.trials
  | .waiting id =>
      writer.writing.Open writer.trials ∧
        writer.write.Reached writer.startedAt cluster id
  | .returned res => res.Concludes writer.trials

structure Sound (writer : Writer) (cluster : Cluster Node) : Prop where
  started : writer.startedAt ≤ cluster.log.length
  trials : ∀ trial ∈ writer.trials, trial.Sound writer.write writer.startedAt cluster
  phase : writer.PhaseSound cluster

end Writer

section Mono

variable {cluster next : Cluster Node} {write : Write} {startedAt : Nat}

theorem Write.Reached.mono {id : Nat} (hreached : write.Reached startedAt cluster id)
    (hfollows : cluster.Follows next) : write.Reached startedAt next id := by
  obtain ⟨handler, uuid, hhandler, hjob, hstarted⟩ := hreached
  obtain ⟨later, hlater, hsame, harrived⟩ := hfollows.handlers id handler hhandler
  exact ⟨later, uuid, hlater, hsame.trans hjob, harrived ▸ hstarted⟩

theorem Trial.Sound.mono {trial : Trial} (hsound : trial.Sound write startedAt cluster)
    (hfollows : cluster.Follows next) : trial.Sound write startedAt next where
  reached := fun hid => (hsound.reached hid).mono hfollows
  served := hsound.served
  told := by
    intro id hid hanswered
    obtain ⟨handler, status, body, hhandler, hphase, hreply⟩ := hsound.told hid hanswered
    exact ⟨handler, status, body, hfollows.answered hhandler hphase, hphase, hreply⟩

theorem Writer.Sound.mono {writer : Writer} (hsound : writer.Sound cluster)
    (hfollows : cluster.Follows next) : writer.Sound next where
  started := Nat.le_trans hsound.started hfollows.log.length_le
  trials := fun trial hmem => (hsound.trials trial hmem).mono hfollows
  phase := by
    have hphase := hsound.phase
    unfold PhaseSound at hphase ⊢
    split at hphase
    · exact hphase
    · exact ⟨hphase.1, hphase.2.mono hfollows⟩
    · exact hphase

end Mono

namespace Exchange

theorem sound_of_trial {deployment : Deployment Node} {cluster : Cluster Node}
    {writer : Writer} (hsound : writer.Sound cluster) {ending : Ending} {ended : Trial}
    (htrial : trial deployment cluster writer ending = some ended) :
    writer.writing.Open writer.trials ∧
      ended.Sound writer.write writer.startedAt cluster := by
  have hphase := hsound.phase
  unfold Writer.PhaseSound at hphase
  cases ending with
  | dialFailed err =>
      simp only [trial] at htrial
      split at htrial
      next hsending =>
          rw [hsending] at hphase
          cases htrial
          exact ⟨hphase, nofun, nofun, nofun⟩
      next => contradiction
  | turnedAway leaderID =>
      simp only [trial] at htrial
      split at htrial
      next node hsending hnode =>
          rw [hsending] at hphase
          split_ifs at htrial
          cases htrial
          refine ⟨hphase, nofun, ?_, nofun⟩
          cases leaderID with
          | none | some => nofun
      next => contradiction
  | lost err =>
      simp only [trial] at htrial
      split at htrial
      next hsending =>
          rw [hsending] at hphase
          cases htrial
          exact ⟨hphase, nofun, nofun, nofun⟩
      next id hwaiting =>
          rw [hwaiting] at hphase
          cases htrial
          refine ⟨hphase.1, ?_, nofun, nofun⟩
          intro other hid
          cases hid
          exact hphase.2
      next => contradiction
  | answered body =>
      simp only [trial] at htrial
      split at htrial
      next id hwaiting =>
          rw [hwaiting] at hphase
          split at htrial
          next status hanswered =>
              cases htrial
              obtain ⟨handler, hhandler, hstatus⟩ := Option.map_eq_some_iff.mp hanswered
              refine ⟨hphase.1, ?_, fun _ => ⟨id, rfl⟩, ?_⟩
              · intro other hid
                cases hid
                exact hphase.2
              · intro other hid _
                cases hid
                exact ⟨handler, status, body, hhandler, hstatus, rfl⟩
          next => contradiction
      next => contradiction
  | proposalFailed body =>
      simp only [trial] at htrial
      split at htrial
      next id hwaiting =>
          rw [hwaiting] at hphase
          split at htrial <;> cases htrial
          all_goals
            refine ⟨hphase.1, ?_, nofun, nofun⟩
            intro other hid
            cases hid
            exact hphase.2
      next => contradiction

theorem sound_endRound {cluster : Cluster Node} {writer : Writer} (hsound : writer.Sound cluster)
    (hopen : writer.writing.Open writer.trials) {ended : Trial}
    (hended : ended.Sound writer.write writer.startedAt cluster) (client : Client)
    (cancelled : Bool) : (endRound client writer ended cancelled).1.Sound cluster := by
  have htrials : ∀ trial ∈ writer.trials ++ [ended],
      trial.Sound writer.write writer.startedAt cluster := by
    intro trial hmem
    rcases List.mem_append.mp hmem with hold | hlast
    · exact hsound.trials trial hold
    · cases List.mem_singleton.mp hlast
      exact hended
  have hleaves := Writing.attempt_leaves { writer.writing with client := client }
    writer.number ⟨ended.reply, cancelled⟩
  unfold endRound
  dsimp only
  split
  next next hturn =>
      rw [hturn] at hleaves
      have hnext : next.Open (writer.trials ++ [ended]) :=
        hopen.concat (Writing.continues_of_attempt (.inl hturn)) hleaves.2
      split
      · exact ⟨hsound.started, htrials, hnext⟩
      · exact ⟨hsound.started, htrials, hnext.concludes⟩
  next next hturn =>
      rw [hturn] at hleaves
      have hnext : next.Open (writer.trials ++ [ended]) :=
        hopen.concat (Writing.continues_of_attempt (.inr hturn)) hleaves.2
      exact ⟨hsound.started, htrials, hnext.concludes⟩
  next res client hturn =>
      rw [hturn] at hleaves
      refine ⟨hsound.started, htrials, ?_⟩
      rcases hleaves.2 with ⟨houtcome, hsuccess⟩ | ⟨houtcome, hrefusal⟩
      · refine ⟨fun _ => ⟨ended, by simp, hsuccess⟩, fun hrejected => ?_⟩
        rw [houtcome] at hrejected
        contradiction
      · exact hopen.refused hrefusal houtcome

structure Sound (exchange : Exchange Node) : Prop where
  cluster : exchange.cluster.Traced
  writers : ∀ {id writer}, exchange.writers id = some writer → writer.Sound exchange.cluster

theorem sound_initial (client : Client) : (initial client : Exchange Node).Sound where
  cluster := Cluster.traced_initial
  writers := fun hwriter => by cases hwriter

variable {exchange : Exchange Node}

theorem Sound.setWriter (hsound : exchange.Sound) {cluster : Cluster Node}
    (htraced : cluster.Traced) (hfollows : exchange.cluster.Follows cluster) {id : Nat}
    {writer : Writer} (hwriter : writer.Sound cluster) (client : Client) :
    ({ exchange.setWriter id writer with cluster, client } : Exchange Node).Sound where
  cluster := htraced
  writers := by
    intro other found hfound
    by_cases hother : other = id
    · subst hother
      simp only [Exchange.setWriter, Function.update_self, Option.some.injEq] at hfound
      subst hfound
      exact hwriter
    · simp only [Exchange.setWriter, Function.update_of_ne hother] at hfound
      exact (hsound.writers hfound).mono hfollows

theorem sound_start (exchange : Exchange Node) (write : Write) :
    (exchange.start write).1.Sound exchange.cluster where
  started := Nat.le_refl _
  trials := nofun
  phase := ⟨nofun, by simp [start, Client.opening]⟩

variable [DecidableEq Node] {deployment : Deployment Node} {next : Exchange Node}
  {event : ExchangeEvent Node}

theorem Sound.reach (hsound : exchange.Sound) {writerID id : Nat} {writer : Writer}
    (hwriter : exchange.writers writerID = some writer) (hphase : writer.phase = .sending)
    {node : Node} {uuid : GoString} {cluster : Cluster Node}
    (harrive : exchange.cluster.step
      (.arrive id node (.http (writer.write.request uuid))) = some cluster) :
    ({ exchange.setWriter writerID { writer with phase := .waiting id } with cluster } :
      Exchange Node).Sound := by
  have hfollows := Cluster.follows_of_step harrive
  have hkept := (hsound.writers hwriter).mono hfollows
  have hopen := hkept.phase
  unfold Writer.PhaseSound at hopen
  rw [hphase] at hopen
  have hreached : writer.write.Reached writer.startedAt cluster id := by
    obtain ⟨-, -, rfl⟩ := Cluster.arrive_of_step harrive
    exact ⟨_, uuid, Function.update_self .., rfl, (hsound.writers hwriter).started⟩
  have hwaiting : ({ writer with phase := .waiting id } : Writer).Sound cluster :=
    ⟨hkept.started, hkept.trials, hopen, hreached⟩
  exact hsound.setWriter (hsound.cluster.step harrive) hfollows hwaiting exchange.client

theorem Sound.step (hsound : exchange.Sound)
    (hstep : Exchange.step deployment exchange event = some next) : next.Sound := by
  cases event with
  | cluster event =>
      obtain ⟨cluster, hcluster, rfl⟩ := Option.map_eq_some_iff.mp hstep
      have hfollows := Cluster.follows_of_step hcluster
      exact ⟨hsound.cluster.step hcluster,
        fun hwriter => (hsound.writers hwriter).mono hfollows⟩
  | call id write =>
      simp only [Exchange.step] at hstep
      split at hstep
      · contradiction
      · cases hstep
        exact hsound.setWriter hsound.cluster (.refl _) (sound_start exchange write) _
  | reach writerID id uuid =>
      simp only [Exchange.step] at hstep
      split at hstep
      · contradiction
      · split at hstep
        · obtain ⟨cluster, harrive, rfl⟩ := Option.map_eq_some_iff.mp hstep
          exact hsound.reach ‹_› ‹_› harrive
        · contradiction
  | finish id ending cancelled =>
      simp only [Exchange.step] at hstep
      split at hstep
      · contradiction
      · rename_i writer hwriter
        obtain ⟨ended, htrial, rfl⟩ := Option.map_eq_some_iff.mp hstep
        have hkept := hsound.writers hwriter
        obtain ⟨hopen, hended⟩ := sound_of_trial hkept htrial
        exact hsound.setWriter hsound.cluster (.refl _)
          (sound_endRound hkept hopen hended exchange.client cancelled) _

/-- Whatever the nodes, Raft and other callers do meanwhile: a write that the client
calls accepted is in the log, once for the attempt that was answered, committed since the
write started and applied without an error.  A write that it calls rejected has changed
nothing and never will, unless an attempt before the last one got a 503 or no answer. -/
theorem verdict_is_true_of_the_log {client : Client} {events : List (ExchangeEvent Node)}
    {final : Exchange Node}
    (hexec : exec (Exchange.step deployment) (initial client) events = some final)
    {id : Nat} {writer : Writer} (hwriter : final.writers id = some writer) {res : Result}
    (hreturned : writer.phase = .returned res) :
    (res.outcome = .accepted →
      ∃ trial ∈ writer.trials, trial.reply.isSuccess ∧
        ∃ call handler uuid position committed,
        trial.handler = some call ∧ final.cluster.handlers call = some handler ∧
        handler.job = .http (writer.write.request uuid) ∧
        Cluster.HoldsAt final.cluster.log call handler.job writer.startedAt position committed ∧
        final.cluster.Accepted position) ∧
    (res.outcome = .rejected →
      (∀ trial ∈ writer.trials.dropLast, trial.reply.mayCommit = false) →
      ∀ trial ∈ writer.trials, ∀ call, trial.handler = some call →
        ∀ position committed, final.cluster.log[position]? = some committed →
          committed.handler = call →
          storeAfter (final.cluster.log.take (position + 1)) =
            storeAfter (final.cluster.log.take position)) := by
  have hsound : final.Sound :=
    exec_preserves (fun hsound hstep => hsound.step hstep) (sound_initial client) hexec
  have hkept := hsound.writers hwriter
  have hconcludes := hkept.phase
  unfold Writer.PhaseSound at hconcludes
  rw [hreturned] at hconcludes
  constructor
  · intro haccepted
    obtain ⟨trial, hmem, hsuccess⟩ := hconcludes.accepted haccepted
    have htrial := hkept.trials trial hmem
    obtain ⟨call, hcall⟩ := htrial.served hsuccess
    have hcertain : trial.reply.mayCommit = false := Reply.not_mayCommit_of_isSuccess hsuccess
    obtain ⟨handler, status, body, hhandler, hphase, hreply⟩ := htrial.told hcall hcertain
    obtain ⟨found, uuid, hfound, hjob, hstarted⟩ := htrial.reached hcall
    cases hfound.symm.trans hhandler
    obtain ⟨position, committed, hholds, hok⟩ :=
      hsound.cluster.accepted_of_success hhandler hphase
        (Status.isSuccess_of_code (hreply ▸ hsuccess))
    exact ⟨trial, hmem, hsuccess, call, handler, uuid, position, committed, hcall, hhandler,
      hjob, { hholds with since := Nat.le_trans hstarted hholds.since }, hok⟩
  · intro hrejected hearlier trial hmem call hcall position committed hfound hid
    obtain ⟨hfailures, hcertain⟩ := hconcludes.rejected hrejected
    obtain ⟨handler, status, body, hhandler, hphase, hreply⟩ :=
      (hkept.trials trial hmem).told hcall (hcertain hearlier trial hmem)
    have hfailed := hfailures trial hmem
    rw [hreply] at hfailed
    exact hsound.cluster.unchanged_of_failure hhandler hphase
      (Status.failure_of_code hfailed) hfound hid

/-! Two nodes, of which the second leads.  The first write is turned away by the first
node and then goes through; the second write finds the queue already there. -/

def pair : Client :=
  { Client.single with
    nodes := [lit "http://dist-mq-0:8080", lit "http://dist-mq-1:8080"]
    nodes_ne_nil := List.cons_ne_nil _ _ }

def pairDeployment : Deployment Bool where
  nodeAt url :=
    if url = lit "http://dist-mq-0:8080" then some false
    else if url = lit "http://dist-mq-1:8080" then some true
    else none
  peerHTTP _ := (∅ : GoMap GoString).insert (lit "node-1") (lit "http://dist-mq-1:8080")

def handled (id : Nat) (index : UInt64) : List (ExchangeEvent Bool) :=
  [.cluster (.prepare id), .cluster (.propose id), .cluster (.commit id index),
    .cluster (.applyNext true), .cluster (.answer id)]

def twoCreations : List (ExchangeEvent Bool) :=
  [.cluster (.elect true), .call 0 (.createQueue (lit "orders")),
    .finish 0 (.turnedAway (some (lit "node-1"))) false, .reach 0 0 []] ++ handled 0 1 ++
  [.finish 0 (.answered []) false, .call 1 (.createQueue (lit "orders")), .reach 1 1 []] ++
  handled 1 2 ++ [.finish 1 (.answered (lit "queue already exists\n")) false]

def createdResult : Result where
  outcome := .accepted
  status := 201
  attempts := 2
  node := lit "http://dist-mq-1:8080"
  body := []
  err := none

def conflictResult : Result where
  outcome := .rejected
  status := 409
  attempts := 1
  node := lit "http://dist-mq-1:8080"
  body := lit "queue already exists\n"
  err := none

theorem two_creations_verdicts :
    ∃ final, exec (Exchange.step pairDeployment) (initial pair) twoCreations = some final ∧
      (∃ position, final.cluster.Accepted position) ∧
      ∀ position committed, final.cluster.log[position]? = some committed →
        committed.handler = 1 →
        storeAfter (final.cluster.log.take (position + 1)) =
          storeAfter (final.cluster.log.take position) := by
  have hrun : (exec (Exchange.step pairDeployment) (initial pair) twoCreations).map
      (fun final => ((final.writers 0).map Writer.phase,
        (final.writers 1).map fun writer => (writer.phase, writer.trials.map Trial.handler))) =
      some (some (.returned createdResult), some (.returned conflictResult, [some 1])) := by
    decide +kernel
  obtain ⟨final, hexec, hwriters⟩ := Option.map_eq_some_iff.mp hrun
  rw [Prod.mk.injEq, Option.map_eq_some_iff, Option.map_eq_some_iff] at hwriters
  obtain ⟨⟨first, hfirst, haccepted⟩, second, hsecond, hrejected⟩ := hwriters
  rw [Prod.mk.injEq] at hrejected
  obtain ⟨trial, htrials, hcall⟩ :
      ∃ trial, second.trials = [trial] ∧ trial.handler = some 1 := by
    simpa [List.map_eq_cons_iff] using hrejected.2
  refine ⟨final, hexec, ?_, ?_⟩
  · obtain ⟨-, -, -, call, handler, uuid, position, committed, -, -, -, -, hok⟩ :=
      (verdict_is_true_of_the_log hexec hfirst haccepted).1 rfl
    exact ⟨position, hok⟩
  · intro position committed
    refine (verdict_is_true_of_the_log hexec hsecond hrejected.1).2 rfl ?_ trial
      (by simp [htrials]) 1 hcall position committed
    simp [htrials]

end Exchange

end SimonMQ.Dist
