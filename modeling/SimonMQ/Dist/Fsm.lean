import SimonMQ.Dist.Command
import SimonMQ.Dist.Storage

namespace SimonMQ.Dist

open SimonMQ.Go

/-! Raft's view of the store: committed entries are decoded and applied in log
order on every node. -/

structure LogEntry where
  index : UInt64
  data : Bytes
  deriving DecidableEq, Repr

/-- The value `FSM.Apply` hands back to the proposer. -/
inductive Response
  | nil
  | message (info : MessageInfo)
  | storageError (err : StorageError)
  | decodeError (index : UInt64) (err : CommandError)
  | unhandled (index : UInt64) (code : UInt8)

namespace FSM

def settle (store : InMemoryStorage) :
    Except StorageError InMemoryStorage → Response × InMemoryStorage
  | .ok next => (.nil, next)
  | .error err => (.storageError err, store)

def applyCommand (index : UInt64) (store : InMemoryStorage) (cmd : Command) :
    Response × InMemoryStorage :=
  match cmd.type with
  | .createQueue => settle store (store.createQueue cmd.queueName)
  | .deleteQueue => settle store (store.deleteQueue cmd.queueName)
  | .putSubPolicy => settle store (store.putSubPolicy cmd.queueName cmd.policy)
  | .deleteSubPolicy =>
      settle store (store.deleteSubPolicy cmd.queueName cmd.subName)
  | .ack => (.nil, store.ack cmd.queueName cmd.msgID cmd.subNames)
  | .enqueue =>
      match store.enqueue cmd.queueName cmd.msgID cmd.payload cmd.subList with
      | .ok (msg, next) => (.message msg, next)
      | .error err => (.storageError err, store)
  | .unknown code => (.unhandled index code, store)

/-- Everything that a command can do to the store. -/
inductive Applied (store : InMemoryStorage) (cmd : Command) : InMemoryStorage → Prop
  | refused : Applied store cmd store
  | createdQueue {next : InMemoryStorage} (htype : cmd.type = .createQueue)
      (hnext : store.createQueue cmd.queueName = .ok next) : Applied store cmd next
  | deletedQueue {next : InMemoryStorage} (htype : cmd.type = .deleteQueue)
      (hnext : store.deleteQueue cmd.queueName = .ok next) : Applied store cmd next
  | putPolicy {next : InMemoryStorage} (htype : cmd.type = .putSubPolicy)
      (hnext : store.putSubPolicy cmd.queueName cmd.policy = .ok next) :
      Applied store cmd next
  | deletedPolicy {next : InMemoryStorage} (htype : cmd.type = .deleteSubPolicy)
      (hnext : store.deleteSubPolicy cmd.queueName cmd.subName = .ok next) :
      Applied store cmd next
  | acked (htype : cmd.type = .ack) :
      Applied store cmd (store.ack cmd.queueName cmd.msgID cmd.subNames)
  | enqueued {info : MessageInfo} {next : InMemoryStorage} (htype : cmd.type = .enqueue)
      (hnext : store.enqueue cmd.queueName cmd.msgID cmd.payload cmd.subList =
        .ok (info, next)) : Applied store cmd next

theorem applied_settle {store : InMemoryStorage} {cmd : Command}
    {result : Except StorageError InMemoryStorage}
    (hresult : ∀ next, result = .ok next → Applied store cmd next) :
    Applied store cmd (settle store result).2 := by
  cases result with
  | ok next => exact hresult next rfl
  | error err => exact .refused

theorem applied_applyCommand (index : UInt64) (store : InMemoryStorage) (cmd : Command) :
    Applied store cmd (applyCommand index store cmd).2 := by
  unfold applyCommand
  cases htype : cmd.type with
  | createQueue => exact applied_settle fun next hnext => .createdQueue htype hnext
  | deleteQueue => exact applied_settle fun next hnext => .deletedQueue htype hnext
  | putSubPolicy => exact applied_settle fun next hnext => .putPolicy htype hnext
  | deleteSubPolicy => exact applied_settle fun next hnext => .deletedPolicy htype hnext
  | ack => exact .acked htype
  | enqueue =>
      dsimp only
      split
      next info next hnext => exact .enqueued htype hnext
      next => exact .refused
  | unknown code => exact .refused

def apply (store : InMemoryStorage) (entry : LogEntry) :
    Response × InMemoryStorage :=
  match Command.decode entry.data with
  | .error err => (.decodeError entry.index err, store)
  | .ok cmd => applyCommand entry.index store cmd

def run (store : InMemoryStorage) : List LogEntry → List Response × InMemoryStorage
  | [] => ([], store)
  | entry :: entries =>
      let (response, next) := apply store entry
      let (responses, final) := run next entries
      (response :: responses, final)

theorem run_cons (store : InMemoryStorage) (entry : LogEntry)
    (entries : List LogEntry) :
    run store (entry :: entries) =
      ((apply store entry).1 :: (run (apply store entry).2 entries).1,
        (run (apply store entry).2 entries).2) := rfl

theorem length_run (store : InMemoryStorage) (entries : List LogEntry) :
    (run store entries).1.length = entries.length := by
  induction entries generalizing store with
  | nil => rfl
  | cons entry entries ih => simp [run_cons, ih]

theorem run_append (store : InMemoryStorage) (before after : List LogEntry) :
    run store (before ++ after) =
      ((run store before).1 ++ (run (run store before).2 after).1,
        (run (run store before).2 after).2) := by
  induction before generalizing store with
  | nil => rfl
  | cons entry before ih => simp [run_cons, ih]

theorem run_invariant {P : InMemoryStorage → Prop}
    (happly : ∀ store entry, P store → P (apply store entry).2)
    {store : InMemoryStorage} (hstore : P store) (entries : List LogEntry) :
    P (run store entries).2 := by
  induction entries generalizing store with
  | nil => exact hstore
  | cons entry entries ih => exact ih (happly store entry hstore)

end FSM

end SimonMQ.Dist
