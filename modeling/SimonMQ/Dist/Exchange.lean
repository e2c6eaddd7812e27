import SimonMQ.Dist.Answers
import SimonMQ.Dist.Client

namespace SimonMQ.Dist

open SimonMQ.Go
open SimonMQ.Transition

/-! Clients that write to the cluster over HTTP.  A request may be turned away by
`requireLeader`, its answer may be lost, and its handler may go on, and its proposal be
committed, after the client has given up on it. -/

def Status.code : Status → Nat
  | .ok => 200
  | .created => 201
  | .accepted => 202
  | .noContent => 204
  | .badRequest => 400
  | .notFound => 404
  | .conflict => 409
  | .serviceUnavailable => 503

/-- The calls of the client that end in `Write`. -/
inductive Write
  | createQueue (queue : GoString)
  | deleteQueue (queue : GoString)
  | putSubPolicy (queue : GoString) (policy : SubPolicy)
  | enqueue (queue payload : GoString)
  deriving DecidableEq, Repr

/-- The request a server gets to handle.  It mints the id of a message itself, so every
attempt of an `Enqueue` has another one.  The client pastes the queue name into the path
unescaped: names are taken to be path-safe. -/
def Write.request (uuid : GoString) : Write → Request
  | createQueue queue => .queueCreation queue
  | deleteQueue queue => .queueDeletion queue
  | putSubPolicy queue policy => .subPolicyCreation queue (encodeSubPolicy policy)
  | enqueue queue payload => .enqueue queue payload uuid

/-- `requireLeader` on a node that does not lead, by the leader it knows of. -/
def requireLeader (peerHTTP : GoMap GoString) : Option GoString → Reply
  | none => .answered 503 [] (lit "no leader elected\n")
  | some leaderID => .answered 421 ((peerHTTP.lookup leaderID).getD []) (lit "not leader\n")

structure Deployment (Node : Type) where
  /-- the node that listens at a base URL -/
  nodeAt : GoString → Option Node
  peerHTTP : Node → GoMap GoString

/-- An attempt that is over: the call it became on a server, if it got that far. -/
structure Trial where
  handler : Option Nat
  reply : Reply
  deriving DecidableEq, Repr

inductive WriterPhase
  | sending
  | waiting (id : Nat)
  | returned (res : Result)
  deriving DecidableEq, Repr

/-- A call of `Write` in progress.  `startedAt` counts the entries that were committed when
it started. -/
structure Writer where
  write : Write
  startedAt : Nat
  writing : Writing
  number : Nat
  phase : WriterPhase
  trials : List Trial

/-- The writers share one client, with its cached leader. -/
structure Exchange (Node : Type) where
  cluster : Cluster Node
  client : Client
  writers : Nat → Option Writer

inductive Ending
  | dialFailed (err : GoString)
  | turnedAway (leaderID : Option GoString)
  | lost (err : GoString)
  | answered (body : Bytes)
  /-- Raft reports an error, such as lost leadership, for a proposal it took -/
  | proposalFailed (body : Bytes)

inductive ExchangeEvent (Node : Type)
  /-- a step of a node, of Raft, or of some other caller -/
  | cluster (event : ClusterEvent Node)
  | call (writer : Nat) (write : Write)
  | reach (writer id : Nat) (uuid : GoString)
  | finish (writer : Nat) (ending : Ending) (cancelled : Bool)

namespace Exchange

variable {Node : Type}

def initial (client : Client) : Exchange Node where
  cluster := .initial
  client := client
  writers _ := none

def setWriter (exchange : Exchange Node) (id : Nat) (writer : Writer) : Exchange Node :=
  { exchange with writers := Function.update exchange.writers id (some writer) }

/-- The first lines of `Write`. -/
def start (exchange : Exchange Node) (write : Write) : Writer × Client :=
  let writing := exchange.client.opening
  ({ write := write
     startedAt := exchange.cluster.log.length
     writing := writing
     number := 1
     phase := .sending
     trials := [] }, writing.client)

def trial (deployment : Deployment Node) (cluster : Cluster Node) (writer : Writer) :
    Ending → Option Trial
  | .dialFailed err =>
      match writer.phase with
      | .sending => some ⟨none, .dialFailed err⟩
      | _ => none
  | .turnedAway leaderID =>
      match writer.phase, deployment.nodeAt writer.writing.target with
      | .sending, some node =>
          if (cluster.leads node).isNone then
            some ⟨none, requireLeader (deployment.peerHTTP node) leaderID⟩
          else none
      | _, _ => none
  | .lost err =>
      match writer.phase with
      | .sending => some ⟨none, .lost err⟩
      | .waiting id => some ⟨some id, .lost err⟩
      | .returned _ => none
  | .answered body =>
      match writer.phase with
      | .waiting id =>
          match (cluster.handlers id).map Handler.phase with
          | some (.answered status) => some ⟨some id, .answered status.code [] body⟩
          | _ => none
      | _ => none
  | .proposalFailed body =>
      match writer.phase with
      | .waiting id =>
          match (cluster.handlers id).map Handler.phase with
          | some (.proposed _ _) | some (.committed _) =>
              some ⟨some id, .answered 503 [] body⟩
          | _ => none
      | _ => none

/-- The rest of a round of `Write`, once its attempt is over. -/
def endRound (client : Client) (writer : Writer) (trial : Trial) (cancelled : Bool) :
    Writer × Client :=
  let writer := { writer with trials := writer.trials ++ [trial] }
  let writing := { writer.writing with client := client }
  match writing.attempt writer.number ⟨trial.reply, cancelled⟩ with
  | .again next =>
      if writer.number < client.maxAttempts then
        ({ writer with writing := next, number := writer.number + 1, phase := .sending },
          next.client)
      else ({ writer with writing := next, phase := .returned next.finish }, next.client)
  | .done next =>
      ({ writer with writing := next, phase := .returned next.finish }, next.client)
  | .returned res client => ({ writer with phase := .returned res }, client)

variable [DecidableEq Node]

def step (deployment : Deployment Node) (exchange : Exchange Node) :
    ExchangeEvent Node → Option (Exchange Node)
  | .cluster event =>
      (exchange.cluster.step event).map fun cluster => { exchange with cluster }
  | .call id write =>
      match exchange.writers id with
      | some _ => none
      | none =>
          let (writer, client) := exchange.start write
          some { exchange.setWriter id writer with client }
  | .reach writerID id uuid =>
      match exchange.writers writerID with
      | none => none
      | some writer =>
          match writer.phase, deployment.nodeAt writer.writing.target with
          | .sending, some node =>
              let job := Job.http (writer.write.request uuid)
              (exchange.cluster.step (.arrive id node job)).map fun cluster =>
                { exchange.setWriter writerID { writer with phase := .waiting id } with
                  cluster }
          | _, _ => none
  | .finish id ending cancelled =>
      match exchange.writers id with
      | none => none
      | some writer =>
          (trial deployment exchange.cluster writer ending).map fun trial =>
            let (writer, client) := endRound exchange.client writer trial cancelled
            { exchange.setWriter id writer with client }

end Exchange

end SimonMQ.Dist
