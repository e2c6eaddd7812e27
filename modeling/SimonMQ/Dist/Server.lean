import SimonMQ.Dist.Fsm

namespace SimonMQ.Dist

open SimonMQ.Go

/-! The HTTP handlers that write: which command a request proposes, and the
status its outcome is answered with. -/

inductive Request
  | queueCreation (queueName : GoString)
  | queueDeletion (queueName : GoString)
  | enqueue (queueName body uuid : GoString)
  | subPolicyCreation (queueName : GoString) (body : Bytes)
  | subPolicyUpdate (queueName subName : GoString) (body : Bytes)
  | subPolicyDeletion (queueName subName : GoString)
  deriving DecidableEq, Repr

inductive Status
  | ok
  | created
  | accepted
  | noContent
  | badRequest
  | notFound
  | conflict
  | serviceUnavailable
  deriving DecidableEq, Repr

def Status.isSuccess : Status → Bool
  | .ok | .created | .accepted | .noContent => true
  | .badRequest | .notFound | .conflict | .serviceUnavailable => false

inductive ProposeError
  | encode (err : CommandError)
  | raft
  | storage (err : StorageError)
  | decode (index : UInt64) (err : CommandError)
  | unhandled (index : UInt64) (code : UInt8)

def unwrapResponse : Response → Except ProposeError Response
  | .storageError err => .error (.storage err)
  | .decodeError index err => .error (.decode index err)
  | .unhandled index code => .error (.unhandled index code)
  | response => .ok response

def writeError : ProposeError → Status
  | .storage .queueNotFound => .notFound
  | .storage .queueExists => .conflict
  | _ => .serviceUnavailable

def respond (success : Status) (response : Response) : Status :=
  match unwrapResponse response with
  | .error err => writeError err
  | .ok _ => success

theorem isSuccess_writeError (err : ProposeError) :
    (writeError err).isSuccess = false := by
  unfold writeError
  split <;> rfl

theorem unwrapResponse_of_isSuccess {success : Status} {response : Response}
    (hsuccess : (respond success response).isSuccess = true) :
    unwrapResponse response = .ok response := by
  unfold respond at hsuccess
  cases response with
  | nil | message => rfl
  | storageError | decodeError | unhandled =>
      simp [unwrapResponse, isSuccess_writeError] at hsuccess

namespace Request

def successStatus : Request → Status
  | queueCreation _ => .created
  | queueDeletion _ => .noContent
  | enqueue _ _ _ => .accepted
  | subPolicyCreation _ _ => .created
  | subPolicyUpdate _ _ _ => .ok
  | subPolicyDeletion _ _ => .noContent

/-- The command a handler proposes, given the local store at the time it reads it,
or the status it refuses the request with. -/
def command (store : InMemoryStorage) : Request → Except Status Command
  | queueCreation queueName => .ok (.newCreateQueue queueName)
  | queueDeletion queueName => .ok (.newDeleteQueue queueName)
  | enqueue queueName body uuid =>
      match store.fetchSubList queueName with
      | none => .error (writeError (.storage .queueNotFound))
      | some subList =>
          .ok (.newEnqueue queueName (queueName ++ lit "-" ++ uuid) body subList)
  | subPolicyCreation queueName body =>
      match decodeSubPolicy body with
      | none => .error .badRequest
      | some policy => .ok (.newPutSubPolicy queueName policy)
  | subPolicyUpdate queueName subName body =>
      match decodeSubPolicy body with
      | none => .error .badRequest
      | some policy => .ok (.newPutSubPolicy queueName { policy with subName })
  | subPolicyDeletion queueName subName => .ok (.newDeleteSubPolicy queueName subName)

theorem isSuccess_of_command_error {store : InMemoryStorage} {request : Request}
    {status : Status} (hrefused : request.command store = .error status) :
    status.isSuccess = false := by
  cases request with
  | queueCreation | queueDeletion | subPolicyDeletion => contradiction
  | enqueue queueName body uuid =>
      simp only [command] at hrefused
      split at hrefused
      · cases hrefused
        exact isSuccess_writeError _
      · contradiction
  | subPolicyCreation | subPolicyUpdate =>
      simp only [command] at hrefused
      split at hrefused
      · cases hrefused
        rfl
      · contradiction

end Request

end SimonMQ.Dist
