import SimonMQ.Attempts
import SimonMQ.Dist.Delivery
import SimonMQ.Dist.Reapply

namespace SimonMQ.Dist

open SimonMQ.Go
open SimonMQ.Attempts (Attempt)

/-! The delivery layers of all nodes over one replicated log.  Of Raft only this is
used: committed entries are totally ordered and every node applies them in that order.
A proposal whose caller was told of a failure may still be committed, and two nodes may
both take themselves for the leader. -/

structure Share where
  queueName : GoString
  msgID : GoString
  subName : GoString
  deriving DecidableEq, Repr

deriving instance DecidableEq for Command

namespace Delivery

/-- The command that the step has to see committed. -/
def proposal (state : Delivery) : DeliveryEvent → Option Command
  | .feeder id (.commit msgID payload) =>
      match state.feeders id with
      | some (.fetched queueName subList) =>
          if state.leading then some (.newEnqueue queueName msgID payload subList) else none
      | _ => none
  | .worker id (.ack true) =>
      match state.workers id with
      | some worker =>
          match worker.phase with
          | .acking msg finished =>
              if state.leading then some (.newAck worker.queueName msg.msgID finished)
              else none
          | _ => none
      | none => none
  | _ => none

/-- The answer of a subscriber that the step takes in. -/
def attempts (state : Delivery) : DeliveryEvent → List (Attempt Share)
  | .worker id (.result subName ok) =>
      match state.workers id with
      | some worker =>
          match worker.phase with
          | .sending msg _ _ =>
              match msg.pendingSubs.lookup subName with
              | some policy =>
                  [⟨⟨worker.queueName, msg.msgID, policy.subName⟩,
                    policy.numberOfRetries.toInt, ok⟩]
              | none => []
          | _ => []
      | none => []
  | _ => []

end Delivery

def replay (log : List Command) : InMemoryStorage :=
  FSM.applyLog .empty (log.map fun cmd => { index := 0, cmd })

theorem replay_concat (log : List Command) (cmd : Command) :
    replay (log ++ [cmd]) = (FSM.applyCommand 0 (replay log) cmd).2 := by
  simp [replay, FSM.applyLog]

theorem replay_take_succ {log : List Command} {position : Nat} {cmd : Command}
    (hentry : log[position]? = some cmd) :
    replay (log.take (position + 1)) =
      (FSM.applyCommand 0 (replay (log.take position)) cmd).2 := by
  rw [List.take_add_one, hentry, Option.toList_some, replay_concat]

structure Fleet (Node : Type) where
  log : List Command
  /-- handed to Raft and not in the log yet -/
  inFlight : List Command
  nodes : Node → Delivery
  /-- how much of the log the store of a node stands for -/
  applied : Node → Nat

inductive FleetEvent (Node : Type)
  /-- a step of a node's delivery layer, or of Raft's leadership there -/
  | act (node : Node) (event : DeliveryEvent)
  /-- whoever takes this step next proposes its command -/
  | submit (node : Node) (event : DeliveryEvent)
  /-- a handler proposes to change queues or subscribers -/
  | request (cmd : Command)
  | commit (position : Nat)
  | apply (node : Node)
  /-- a node takes over a snapshot of the log up to a position -/
  | install (node : Node) (position : Nat)
  /-- a node starts over from a snapshot, with nothing else in memory -/
  | restart (node : Node) (position : Nat)

def publishedIDs (commands : List Command) : List GoString :=
  (commands.filter fun cmd => cmd.type = .enqueue).map Command.msgID

namespace Fleet

variable {Node : Type}

def initial : Fleet Node where
  log := []
  inFlight := []
  nodes _ := .initial
  applied _ := 0

def commands (fleet : Fleet Node) : List Command := fleet.log ++ fleet.inFlight

variable [DecidableEq Node]

def setNode (fleet : Fleet Node) (node : Node) (state : Delivery) (applied : Nat) :
    Fleet Node :=
  { fleet with
    nodes := Function.update fleet.nodes node state
    applied := Function.update fleet.applied node applied }

def step (fleet : Fleet Node) : FleetEvent Node → Option (Fleet Node)
  | .act _ (.replicate _) => none
  | .act node event =>
      match (fleet.nodes node).step event, (fleet.nodes node).proposal event with
      | none, _ => none
      | some state, none => some (fleet.setNode node state (fleet.applied node))
      | some state, some cmd =>
          -- `future.Error` returns once the entry is applied where it was proposed
          if fleet.log[fleet.applied node]? = some cmd then
            some (fleet.setNode node state (fleet.applied node + 1))
          else none
  | .submit node event =>
      match (fleet.nodes node).proposal event with
      | none => none
      | some cmd =>
          -- `uuid.New` does not repeat itself
          if cmd.type = .enqueue → cmd.msgID ∉ publishedIDs fleet.commands then
            some { fleet with inFlight := fleet.inFlight ++ [cmd] }
          else none
  | .request cmd =>
      if cmd.isAdministrative then some { fleet with inFlight := fleet.inFlight ++ [cmd] }
      else none
  | .commit position =>
      match fleet.inFlight[position]? with
      | none => none
      | some cmd =>
          some { fleet with
            log := fleet.log ++ [cmd]
            inFlight := fleet.inFlight.eraseIdx position }
  | .apply node =>
      match fleet.log[fleet.applied node]? with
      | none => none
      | some cmd =>
          let state := fleet.nodes node
          some (fleet.setNode node
            { state with store := (FSM.applyCommand 0 state.store cmd).2 }
            (fleet.applied node + 1))
  | .install node position =>
      if fleet.applied node ≤ position ∧ position ≤ fleet.log.length then
        some (fleet.setNode node
          { fleet.nodes node with store := replay (fleet.log.take position) } position)
      else none
  | .restart node position =>
      if position ≤ fleet.log.length then
        some (fleet.setNode node
          { Delivery.initial with store := replay (fleet.log.take position) } position)
      else none

def attempts (fleet : Fleet Node) : FleetEvent Node → List (Attempt Share)
  | .act node event => (fleet.nodes node).attempts event
  | _ => []

inductive Stepped (fleet : Fleet Node) : FleetEvent Node → Fleet Node → Prop
  | acted {node : Node} {event : DeliveryEvent} {state : Delivery}
      (hevent : ∀ cmd, event ≠ .replicate cmd)
      (hstep : (fleet.nodes node).step event = some state)
      (hnone : (fleet.nodes node).proposal event = none) :
      Stepped fleet (.act node event) (fleet.setNode node state (fleet.applied node))
  | answered {node : Node} {event : DeliveryEvent} {state : Delivery} {cmd : Command}
      (hevent : ∀ cmd, event ≠ .replicate cmd)
      (hstep : (fleet.nodes node).step event = some state)
      (hproposal : (fleet.nodes node).proposal event = some cmd)
      (hentry : fleet.log[fleet.applied node]? = some cmd) :
      Stepped fleet (.act node event) (fleet.setNode node state (fleet.applied node + 1))
  | submitted {node : Node} {event : DeliveryEvent} {cmd : Command}
      (hproposal : (fleet.nodes node).proposal event = some cmd)
      (hfresh : cmd.type = .enqueue → cmd.msgID ∉ publishedIDs fleet.commands) :
      Stepped fleet (.submit node event) { fleet with inFlight := fleet.inFlight ++ [cmd] }
  | requested {cmd : Command} (hcmd : cmd.isAdministrative = true) :
      Stepped fleet (.request cmd) { fleet with inFlight := fleet.inFlight ++ [cmd] }
  | committed {position : Nat} {cmd : Command}
      (hcmd : fleet.inFlight[position]? = some cmd) :
      Stepped fleet (.commit position) { fleet with
        log := fleet.log ++ [cmd]
        inFlight := fleet.inFlight.eraseIdx position }
  | applied {node : Node} {cmd : Command}
      (hentry : fleet.log[fleet.applied node]? = some cmd) :
      Stepped fleet (.apply node) (fleet.setNode node
        { fleet.nodes node with
          store := (FSM.applyCommand 0 (fleet.nodes node).store cmd).2 }
        (fleet.applied node + 1))
  | installed {node : Node} {position : Nat} (hahead : fleet.applied node ≤ position)
      (hposition : position ≤ fleet.log.length) :
      Stepped fleet (.install node position) (fleet.setNode node
        { fleet.nodes node with store := replay (fleet.log.take position) } position)
  | restarted {node : Node} {position : Nat} (hposition : position ≤ fleet.log.length) :
      Stepped fleet (.restart node position) (fleet.setNode node
        { Delivery.initial with store := replay (fleet.log.take position) } position)

theorem stepped_of_step {fleet next : Fleet Node} {event : FleetEvent Node}
    (hstep : fleet.step event = some next) : Stepped fleet event next := by
  unfold step at hstep
  split at hstep
  next => contradiction
  next node event hreplicate =>
      split at hstep
      next => contradiction
      next state hstate hnone =>
          cases hstep
          exact .acted (fun cmd heq => hreplicate cmd heq) hstate hnone
      next state cmd hstate hproposal =>
          split_ifs at hstep with hentry
          cases hstep
          exact .answered (fun cmd heq => hreplicate cmd heq) hstate hproposal hentry
  next node event =>
      split at hstep
      next => contradiction
      next cmd hproposal =>
          split_ifs at hstep with hfresh
          cases hstep
          exact .submitted hproposal hfresh
  next cmd =>
      split_ifs at hstep with hcmd
      cases hstep
      exact .requested hcmd
  next position =>
      split at hstep
      next => contradiction
      next cmd hcmd =>
          cases hstep
          exact .committed hcmd
  next node =>
      split at hstep
      next => contradiction
      next cmd hentry =>
          cases hstep
          exact .applied hentry
  next node position =>
      split_ifs at hstep with hposition
      cases hstep
      exact .installed hposition.1 hposition.2
  next node position =>
      split_ifs at hstep with hposition
      cases hstep
      exact .restarted hposition

end Fleet

end SimonMQ.Dist
