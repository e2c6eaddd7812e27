import SimonMQ.Dist.Queue
import SimonMQ.Transition

namespace SimonMQ.Dist

open SimonMQ.Go
open SimonMQ.Transition

/-! One buffer, the calls of `Add` under way on it and the worker that drains it.  What
happens under the lock is one step, the send on the channel another. -/

/-- Where `Worker.Run` stands.  `requeued` lies between the two steps of the `Add` that
`Process` itself makes. -/
inductive RunPoint (α : Type)
  | checking
  | popping
  | processing (msg : α)
  | requeued (msg : α)
  | waiting
  | returned
  deriving DecidableEq, Repr

/-- `unsent` counts the calls of `Add` that have inserted and not yet sent. -/
structure Draining (α : Type) where
  queue : Queue α
  unsent : Nat
  stopped : Bool
  point : RunPoint α
  deriving DecidableEq, Repr

inductive DrainEvent (α : Type)
  -- Add, from any goroutine but the worker's
  | insert (msg : α)
  | send
  -- the manager closes the stop channel
  | stop
  -- Worker.Run
  | check
  | pop
  | settle
  | requeue
  | resend
  | wake
  | leave
  deriving DecidableEq, Repr

namespace Draining

variable {α : Type}

def initial (α : Type) (name : GoString) : Draining α where
  queue := newQueue α name
  unsent := 0
  stopped := false
  point := .checking

/-- The next state, or none where the event cannot happen or the buffer panics. -/
def step (state : Draining α) : DrainEvent α → Option (Draining α)
  | .insert msg =>
      match state.queue.insert (some msg) with
      | .ok queue => some { state with queue := queue, unsent := state.unsent + 1 }
      | .error _ => none
  | .send =>
      if 0 < state.unsent then
        some { state with queue := state.queue.signal, unsent := state.unsent - 1 }
      else none
  | .stop => some { state with stopped := true }
  | .check =>
      match state.point with
      | .checking =>
          some { state with point := if state.stopped then .returned else .popping }
      | _ => none
  | .pop =>
      match state.point with
      | .popping =>
          match state.queue.pop with
          | .ok (some msg, queue) =>
              some { state with queue := queue, point := .processing msg }
          | .ok (none, queue) => some { state with queue := queue, point := .waiting }
          | .error _ => none
      | _ => none
  | .settle =>
      match state.point with
      | .processing _ => some { state with point := .checking }
      | _ => none
  | .requeue =>
      match state.point with
      | .processing msg =>
          match state.queue.insert (some msg) with
          | .ok queue => some { state with queue := queue, point := .requeued msg }
          | .error _ => none
      | _ => none
  | .resend =>
      match state.point with
      | .requeued _ => some { state with queue := state.queue.signal, point := .checking }
      | _ => none
  -- With both channels ready the select takes either.
  | .wake =>
      match state.point with
      | .waiting =>
          if state.queue.hasWork then
            some { state with
              queue := { state.queue with hasWork := false }
              point := .checking }
          else none
      | _ => none
  | .leave =>
      match state.point with
      | .waiting => if state.stopped then some { state with point := .returned } else none
      | _ => none

/-- The buffer holds messages, never a nil pointer, and a worker that waits is owed
a wakeup for them. -/
structure Attentive (state : Draining α) : Prop where
  messages : ∃ msgs : List α, state.queue.Holds (msgs.map some)
  heard : state.point = .waiting →
    state.queue.len = 0 ∨ state.queue.hasWork = true ∨ 0 < state.unsent

theorem initial_attentive (name : GoString) : (initial α name).Attentive where
  messages := ⟨[], Queue.newQueue_holds name⟩
  heard := fun hpoint => nomatch hpoint

theorem Attentive.of_awake {state : Draining α} {msgs : List α}
    (hholds : state.queue.Holds (msgs.map some)) (hawake : state.point ≠ .waiting) :
    state.Attentive :=
  ⟨⟨msgs, hholds⟩, fun hpoint => absurd hpoint hawake⟩

theorem insert_message {queue next : Queue α} {msgs : List α} {msg : α}
    (hholds : queue.Holds (msgs.map some)) (hinsert : queue.insert (some msg) = .ok next) :
    next.Holds ((msgs ++ [msg]).map some) := by
  obtain ⟨inserted, hok, hnext, _⟩ := hholds.insert (some msg)
  rw [hinsert, Except.ok.injEq] at hok
  subst hok
  simpa using hnext

theorem pop_message {queue next : Queue α} {msgs : List α} {popped : Option α}
    (hholds : queue.Holds (msgs.map some)) (hpop : queue.pop = .ok (popped, next)) :
    match popped with
    | none => next.Holds []
    | some _ => ∃ rest : List α, next.Holds (rest.map some) := by
  cases msgs with
  | nil =>
      rw [hholds.pop_nil, Except.ok.injEq, Prod.mk.injEq] at hpop
      obtain ⟨rfl, rfl⟩ := hpop
      exact hholds
  | cons msg msgs =>
      obtain ⟨rest, hok, hrest, _⟩ := hholds.pop_cons
      rw [hok, Except.ok.injEq, Prod.mk.injEq] at hpop
      obtain ⟨rfl, rfl⟩ := hpop
      exact ⟨msgs, hrest⟩

theorem step_attentive {state next : Draining α} {event : DrainEvent α}
    (hstate : state.Attentive) (hstep : state.step event = some next) :
    next.Attentive := by
  obtain ⟨msgs, hholds⟩ := hstate.messages
  cases event with
  | insert msg =>
      simp only [step] at hstep
      split at hstep
      next queue hinsert =>
          cases hstep
          exact ⟨⟨_, insert_message hholds hinsert⟩, fun _ => .inr (.inr (Nat.succ_pos _))⟩
      next => contradiction
  | send =>
      simp only [step] at hstep
      split at hstep
      next =>
          cases hstep
          exact ⟨⟨msgs, hholds.signal⟩, fun _ => .inr (.inl rfl)⟩
      next => contradiction
  | stop =>
      cases hstep
      exact ⟨⟨msgs, hholds⟩, hstate.heard⟩
  | check =>
      simp only [step] at hstep
      split at hstep
      next =>
          cases hstep
          refine .of_awake hholds ?_
          dsimp only
          split <;> simp
      next => contradiction
  | pop =>
      simp only [step] at hstep
      split at hstep
      next =>
          split at hstep
          next msg queue hpop =>
              cases hstep
              obtain ⟨rest, hrest⟩ := pop_message hholds hpop
              exact .of_awake hrest (by simp)
          next queue hpop =>
              cases hstep
              have hempty : queue.Holds [] := pop_message hholds hpop
              exact ⟨⟨[], hempty⟩, fun _ => .inl hempty.count_eq⟩
          next => contradiction
      next => contradiction
  | settle =>
      simp only [step] at hstep
      split at hstep
      next =>
          cases hstep
          exact .of_awake hholds (by simp)
      next => contradiction
  | requeue =>
      simp only [step] at hstep
      split at hstep
      next msg hpoint =>
          split at hstep
          next queue hinsert =>
              cases hstep
              exact .of_awake (insert_message hholds hinsert) (by simp)
          next => contradiction
      next => contradiction
  | resend =>
      simp only [step] at hstep
      split at hstep
      next =>
          cases hstep
          exact .of_awake hholds.signal (by simp)
      next => contradiction
  | wake =>
      simp only [step] at hstep
      split at hstep
      next =>
          split at hstep
          next =>
              cases hstep
              have htaken : { state.queue with hasWork := false }.Holds (msgs.map some) :=
                { hholds with }
              exact .of_awake htaken (by simp)
          next => contradiction
      next => contradiction
  | leave =>
      simp only [step] at hstep
      split at hstep
      next =>
          split at hstep
          next =>
              cases hstep
              exact .of_awake hholds (by simp)
          next => contradiction
      next => contradiction

/-- The buffer panics in no reachable state, so each step there is one of the program's. -/
theorem reached_buffer_returns {name : GoString} {events : List (DrainEvent α)}
    {state : Draining α} (hexec : exec step (initial α name) events = some state) :
    (∀ msg, ∃ queue, state.queue.insert (some msg) = .ok queue) ∧
      ∃ popped queue, state.queue.pop = .ok (popped, queue) := by
  obtain ⟨msgs, hholds⟩ :=
    (exec_preserves step_attentive (initial_attentive name) hexec).messages
  constructor
  · intro msg
    obtain ⟨queue, hinsert, _⟩ := hholds.insert (some msg)
    exact ⟨queue, hinsert⟩
  · cases msgs with
    | nil => exact ⟨none, _, hholds.pop_nil⟩
    | cons msg msgs =>
        obtain ⟨queue, hpop, _⟩ := hholds.pop_cons
        exact ⟨some msg, queue, hpop⟩

/-- A worker that waits beside a message, stopped or not, has a token to take or will get
one from an `Add` that has not sent yet. -/
theorem no_lost_wakeup {name : GoString} {events : List (DrainEvent α)}
    {state : Draining α} (hexec : exec step (initial α name) events = some state)
    (hwaiting : state.point = .waiting) (hbacklog : 0 < state.queue.len) :
    state.queue.hasWork = true ∨ 0 < state.unsent := by
  have hattentive := exec_preserves step_attentive (initial_attentive name) hexec
  rcases hattentive.heard hwaiting with hempty | howed
  · omega
  · exact howed

/-- The worker takes a message before its `Add` has sent, and the next message arrives
after the `Pop` that found nothing. -/
def overtaken : Draining Nat where
  queue :=
    { name := lit "orders"
      buf := some 2 :: List.replicate 9 none
      head := 0
      count := 1
      hasWork := false }
  unsent := 2
  stopped := false
  point := .waiting

theorem overtaken_is_heard :
    exec step (initial Nat (lit "orders"))
        [.insert 1, .check, .pop, .settle, .check, .pop, .insert 2] = some overtaken ∧
      (overtaken.queue.hasWork = true ∨ 0 < overtaken.unsent) := by
  have hexec : exec step (initial Nat (lit "orders"))
      [.insert 1, .check, .pop, .settle, .check, .pop, .insert 2] = some overtaken := by
    decide
  exact ⟨hexec, no_lost_wakeup hexec rfl (by decide)⟩

end Draining

end SimonMQ.Dist
