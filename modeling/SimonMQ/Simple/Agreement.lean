import SimonMQ.Go.Map
import SimonMQ.Simple.Ring

namespace SimonMQ.Simple

open SimonMQ.Go

/-- A message, declared alike by both brokers.  Nothing writes to one after it is
made, so a pointer to it is its value. -/
structure QueueMsg where
  msgId : GoString
  payload : GoString
  deriving Repr, DecidableEq

/-- What `enqueue` makes of its arguments, alike in both brokers. -/
def newMsg (name payload : GoString) : QueueMsg :=
  { msgId := name ++ lit "/", payload := payload }

/-! The first broker: one slice per queue, made by the first enqueue. -/

structure Queue where
  name : GoString
  messages : List QueueMsg

structure Broker where
  queues : GoMap Queue

def newBroker : Broker := ⟨∅⟩

namespace Broker

def enqueue (b : Broker) (name payload : GoString) : QueueMsg × Broker :=
  let msg := newMsg name payload
  match b.queues.lookup name with
  | some val =>
      (msg, ⟨b.queues.insert name { val with messages := val.messages ++ [msg] }⟩)
  | none => (msg, ⟨b.queues.insert name { name := name, messages := [msg] }⟩)

def dequeue (b : Broker) (name : GoString) : Option QueueMsg × Broker :=
  match b.queues.lookup name with
  | none => (none, b)
  | some val =>
      match val.messages with
      | [] => (none, b)
      | msg :: rest => (some msg, ⟨b.queues.insert name { val with messages := rest }⟩)

end Broker

/-! The second broker: ring buffers, made by whichever call comes first. -/

structure RingBroker where
  queues : GoMap (RingQueue QueueMsg)

def newRingBroker : RingBroker := ⟨∅⟩

namespace RingBroker

def getOrCreateQueue (b : RingBroker) (name : GoString) :
    RingQueue QueueMsg × RingBroker :=
  match b.queues.lookup name with
  | some q => (q, b)
  | none =>
      let q := newQueue name
      (q, ⟨b.queues.insert name q⟩)

def enqueue (b : RingBroker) (name payload : GoString) :
    Except Panic (QueueMsg × RingBroker) := do
  let msg := newMsg name payload
  let (queue, b) := b.getOrCreateQueue name
  let queue ← queue.add msg
  return (msg, ⟨b.queues.insert name queue⟩)

def dequeue (b : RingBroker) (name : GoString) :
    Except Panic (Option QueueMsg × RingBroker) := do
  let (queue, b) := b.getOrCreateQueue name
  let (msg, queue) ← queue.pop
  return (msg, ⟨b.queues.insert name queue⟩)

end RingBroker

inductive Call
  | enqueue (name payload : GoString)
  | dequeue (name : GoString)
  deriving Repr, DecidableEq

def Broker.call (b : Broker) : Call → Option QueueMsg × Broker
  | .enqueue name payload =>
      let (msg, b) := b.enqueue name payload
      (some msg, b)
  | .dequeue name => b.dequeue name

def RingBroker.call (b : RingBroker) : Call → Except Panic (Option QueueMsg × RingBroker)
  | .enqueue name payload => do
      let (msg, b) ← b.enqueue name payload
      return (some msg, b)
  | .dequeue name => b.dequeue name

def Broker.answers : Broker → List Call → List (Option QueueMsg)
  | _, [] => []
  | b, call :: calls =>
      let (msg, b) := b.call call
      msg :: b.answers calls

def RingBroker.answers : RingBroker → List Call → Except Panic (List (Option QueueMsg))
  | _, [] => return []
  | b, call :: calls => do
      let (msg, b) ← b.call call
      let msgs ← b.answers calls
      return msg :: msgs

/-! Both brokers are compared by the messages that wait under each name: a queue
that was never made and a queue that has run empty answer alike. -/

def Broker.waiting (b : Broker) (name : GoString) : List QueueMsg :=
  match b.queues.lookup name with
  | none => []
  | some val => val.messages

theorem Broker.waiting_enqueue (b : Broker) (name payload other : GoString) :
    (b.enqueue name payload).2.waiting other =
      if other = name then b.waiting name ++ [newMsg name payload] else b.waiting other := by
  unfold Broker.enqueue
  cases hqueue : b.queues.lookup name <;> by_cases hother : other = name <;>
    simp [Broker.waiting, GoMap.lookup_insert_eq, hqueue, hother]

theorem Broker.dequeue_fst (b : Broker) (name : GoString) :
    (b.dequeue name).1 = (b.waiting name).head? := by
  unfold Broker.dequeue Broker.waiting
  cases b.queues.lookup name with
  | none => rfl
  | some val =>
      dsimp only
      cases val.messages with
      | nil => rfl
      | cons msg rest => rfl

theorem Broker.waiting_dequeue (b : Broker) (name other : GoString) :
    (b.dequeue name).2.waiting other =
      if other = name then (b.waiting name).tail else b.waiting other := by
  unfold Broker.dequeue
  by_cases hother : other = name
  · subst hother
    cases hqueue : b.queues.lookup other with
    | none => simp [Broker.waiting, hqueue]
    | some val =>
        cases hmessages : val.messages <;>
          simp [Broker.waiting, hqueue, hmessages]
  · cases b.queues.lookup name with
    | none => rw [if_neg hother]
    | some val =>
        cases hmessages : val.messages <;>
          simp [Broker.waiting, hmessages, hother]

/-- The ring broker holds, under every name, what the slice broker holds. -/
def RingBroker.Simulates (ring : RingBroker) (b : Broker) : Prop :=
  ∀ name,
    match ring.queues.lookup name with
    | none => b.waiting name = []
    | some queue => queue.Holds (b.waiting name)

namespace RingBroker.Simulates

variable {ring : RingBroker} {b : Broker}

theorem getOrCreateQueue (hsim : ring.Simulates b) (name : GoString) :
    (ring.getOrCreateQueue name).1.Holds (b.waiting name) ∧
      (ring.getOrCreateQueue name).2.Simulates b := by
  have hname := hsim name
  unfold RingBroker.getOrCreateQueue
  cases hqueue : ring.queues.lookup name with
  | some queue =>
      rw [hqueue] at hname
      exact ⟨hname, hsim⟩
  | none =>
      rw [hqueue] at hname
      have hfresh : (newQueue name).Holds (b.waiting name) := by
        rw [hname]
        exact RingQueue.newQueue_holds name
      refine ⟨hfresh, fun other => ?_⟩
      rw [GoMap.lookup_insert_eq]
      by_cases hother : other = name
      · rw [if_pos hother, hother]
        exact hfresh
      · rw [if_neg hother]
        exact hsim other

theorem insert {next : Broker} {queue : RingQueue QueueMsg} {name : GoString}
    {msgs : List QueueMsg} (hsim : ring.Simulates b) (hholds : queue.Holds msgs)
    (hnext : ∀ other, next.waiting other = if other = name then msgs else b.waiting other) :
    RingBroker.Simulates ⟨ring.queues.insert name queue⟩ next := by
  intro other
  rw [GoMap.lookup_insert_eq, hnext]
  by_cases hother : other = name
  · rw [if_pos hother, if_pos hother]
    exact hholds
  · rw [if_neg hother, if_neg hother]
    exact hsim other

theorem enqueue (hsim : ring.Simulates b) (name payload : GoString) :
    ∃ next, ring.enqueue name payload = .ok (newMsg name payload, next) ∧
      next.Simulates (b.enqueue name payload).2 := by
  obtain ⟨hholds, hmade⟩ := hsim.getOrCreateQueue name
  obtain ⟨queue, hadd, hqueue⟩ := hholds.add (newMsg name payload)
  refine ⟨_, ?_, hmade.insert hqueue (b.waiting_enqueue name payload)⟩
  simp only [RingBroker.enqueue, hadd]
  rfl

theorem dequeue (hsim : ring.Simulates b) (name : GoString) :
    ∃ next, ring.dequeue name = .ok ((b.dequeue name).1, next) ∧
      next.Simulates (b.dequeue name).2 := by
  obtain ⟨hholds, hmade⟩ := hsim.getOrCreateQueue name
  obtain ⟨queue, hpop, hqueue⟩ : ∃ queue,
      (ring.getOrCreateQueue name).1.pop = .ok ((b.waiting name).head?, queue) ∧
        queue.Holds (b.waiting name).tail := by
    generalize b.waiting name = msgs at hholds
    cases msgs with
    | nil => exact ⟨_, hholds.pop_nil, hholds⟩
    | cons msg msgs => exact hholds.pop_cons
  refine ⟨_, ?_, hmade.insert hqueue (b.waiting_dequeue name)⟩
  simp only [RingBroker.dequeue, hpop, b.dequeue_fst name]
  rfl

theorem call (hsim : ring.Simulates b) (call : Call) :
    ∃ next, ring.call call = .ok ((b.call call).1, next) ∧
      next.Simulates (b.call call).2 := by
  cases call with
  | enqueue name payload =>
      obtain ⟨next, henqueue, hnext⟩ := hsim.enqueue name payload
      refine ⟨next, ?_, hnext⟩
      have hmsg : (b.enqueue name payload).1 = newMsg name payload := by
        unfold Broker.enqueue
        cases b.queues.lookup name <;> rfl
      simp only [RingBroker.call, Broker.call, henqueue, hmsg]
      rfl
  | dequeue name => exact hsim.dequeue name

theorem answers (hsim : ring.Simulates b) (calls : List Call) :
    ring.answers calls = .ok (b.answers calls) := by
  induction calls generalizing ring b with
  | nil => rfl
  | cons call calls ih =>
      obtain ⟨next, hcall, hnext⟩ := hsim.call call
      simp only [RingBroker.answers, Broker.answers, hcall, bind, Except.bind, ih hnext]
      rfl

end RingBroker.Simulates

/-- Whatever is asked of them from the start, the ring broker gives the slice
broker's answers and never panics. -/
theorem ring_answers_as_slice (calls : List Call) :
    newRingBroker.answers calls = .ok (newBroker.answers calls) :=
  RingBroker.Simulates.answers (fun _ => rfl) calls

end SimonMQ.Simple
