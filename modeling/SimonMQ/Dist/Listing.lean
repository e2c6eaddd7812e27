import SimonMQ.Dist.Client
import SimonMQ.Dist.Snapshot
import SimonMQ.Dist.Worklist

namespace SimonMQ.Dist

open SimonMQ.Go
open SimonMQ.Go.Json
open SimonMQ.Go.Utf8

/-! The listing of a node's queues, from its store through JSON to the client that counts
what is left to deliver. -/

structure QueueInfo where
  name : GoString
  subPolicies : GoMap SubPolicy
  messages : List MessageInfo

namespace MessageInfo

def zero : MessageInfo where
  msgID := []
  payload := []
  subList := ∅
  ackedSubs := []

def fields : List (StructField MessageInfo) :=
  [ .string (lit "MsgId") msgID fun msg msgID => { msg with msgID },
    .string (lit "Payload") payload fun msg payload => { msg with payload },
    .map (lit "SubList") SubPolicy.fields .zero subList
      fun msg subList => { msg with subList },
    .strings (lit "AckedSubs") ackedSubs fun msg ackedSubs => { msg with ackedSubs } ]

def coerce (msg : MessageInfo) : MessageInfo where
  msgID := toValid msg.msgID
  payload := toValid msg.payload
  subList := coerceMap SubPolicy.coerce msg.subList
  ackedSubs := msg.ackedSubs.map toValid

theorem intoStruct_coerce (msg : MessageInfo) :
    intoStruct fields (structValue fields msg).coerce zero = some msg.coerce := by
  have hnames : WellNamed fields := by decide +kernel
  rw [Json.intoStruct_coerce hnames]
  have hsubs := intoMap_coerce SubPolicy.intoStruct_coerce msg.subList
  have hacked := intoSlice_coerce [] (fun text => intoString_coerce text [])
    msg.ackedSubs []
  simp [fields, StructField.string, StructField.map, StructField.mapOf,
    StructField.strings, coerce, zero, hsubs, hacked]

end MessageInfo

namespace QueueInfo

def zero : QueueInfo where
  name := []
  subPolicies := ∅
  messages := []

def fields : List (StructField QueueInfo) :=
  [ .string (lit "Name") name fun info name => { info with name },
    .map (lit "SubPolicies") SubPolicy.fields .zero subPolicies
      fun info subPolicies => { info with subPolicies },
    .structs (lit "Messages") MessageInfo.fields .zero messages
      fun info messages => { info with messages } ]

def coerce (info : QueueInfo) : QueueInfo where
  name := toValid info.name
  subPolicies := coerceMap SubPolicy.coerce info.subPolicies
  messages := info.messages.map MessageInfo.coerce

theorem intoStruct_coerce (info : QueueInfo) :
    intoStruct fields (structValue fields info).coerce zero = some info.coerce := by
  have hnames : WellNamed fields := by decide +kernel
  rw [Json.intoStruct_coerce hnames]
  have hsubs := intoMap_coerce SubPolicy.intoStruct_coerce info.subPolicies
  have hmessages := intoSlice_coerce .zero MessageInfo.intoStruct_coerce info.messages []
  simp [fields, StructField.string, StructField.map, StructField.mapOf,
    StructField.structs, coerce, zero, hsubs, hmessages]

end QueueInfo

def queueInfo (queue : QueueState) : QueueInfo where
  name := queue.name
  subPolicies := queue.subs
  messages := messagesInOrder queue

def InMemoryStorage.allQueueInfo (store : InMemoryStorage) : List QueueInfo :=
  store.queuesInOrder.map queueInfo

/-- `HandleListQueues`: the body, which `Encode` ends with a newline. -/
def handleListQueues (store : InMemoryStorage) : Bytes :=
  (sliceValue (structValue QueueInfo.fields) store.allQueueInfo).print ++ [0x0A]

inductive ListError
  | send (err : GoString)
  | status (status : Nat)
  | unmarshal
  deriving DecidableEq, Repr

def listQueues : Reply → Except ListError (List QueueInfo)
  | .dialFailed err | .lost err => .error (.send err)
  | .answered status _ body =>
      if status ≠ 200 then .error (.status status)
      else
        match (parse body).bind fun json =>
          intoSlice (intoStruct QueueInfo.fields) QueueInfo.zero json [] with
        | none => .error .unmarshal
        | some infos => .ok infos

/-- `Harness.Outstanding`, from a listing. -/
def countOutstanding (queues : List GoString) (infos : List QueueInfo) : Nat :=
  infos.foldl (fun total info =>
    if info.name ∈ queues then total + info.messages.length else total) 0

/-! What comes back is what was listed. -/

theorem MessageState.coerce_toMessageInfo {msg : MessageState} (hmsg : msg.Storable) :
    (toMessageInfo msg).coerce = toMessageInfo msg := by
  have hacked : (sortedNames msg.ackedSubs).map toValid = sortedNames msg.ackedSubs := by
    conv_rhs => rw [← List.map_id (sortedNames msg.ackedSubs)]
    apply List.map_congr_left
    intro name hmem
    exact flatten_runes_of_valid (hmsg.ackedSubs name (by simpa [sortedNames] using hmem))
  simp only [toMessageInfo, MessageInfo.coerce, flatten_runes_of_valid hmsg.msgID,
    flatten_runes_of_valid hmsg.payload, coerceMap_of_validSubs hmsg.subList, hacked]

theorem QueueState.coerce_queueInfo {queue : QueueState} (hqueue : queue.Storable) :
    (queueInfo queue).coerce = queueInfo queue := by
  have henum := enumerates_sorted_values queue.messages MessageState.msgID
    (fun msgID msg hlookup => (hqueue.messages msgID msg hlookup).1)
    fun left right => left.seq ≤ right.seq
  have hmessages : (messagesInOrder queue).map MessageInfo.coerce = messagesInOrder queue := by
    rw [messagesInOrder, List.map_map]
    apply List.map_congr_left
    intro msg hmem
    have hlookup := henum.lookup_of_mem (List.mem_map_of_mem hmem)
    exact MessageState.coerce_toMessageInfo (hqueue.messages _ _ hlookup).2
  simp only [queueInfo, QueueInfo.coerce, flatten_runes_of_valid hqueue.name,
    coerceMap_of_validSubs hqueue.subs, hmessages]

namespace InMemoryStorage

variable {store : InMemoryStorage}

theorem enumerates_queuesInOrder (hstore : store.Storable) :
    GoMap.Enumerates (store.queuesInOrder.map fun queue => (queue.name, queue))
      store.queues :=
  enumerates_sorted_values store.queues QueueState.name
    (fun name queue hlookup => (hstore.queues name queue hlookup).1)
    fun left right => left.name ≤ right.name

theorem coerce_allQueueInfo (hstore : store.Storable) :
    store.allQueueInfo.map QueueInfo.coerce = store.allQueueInfo := by
  rw [allQueueInfo, List.map_map]
  apply List.map_congr_left
  intro queue hmem
  have hlookup :=
    (enumerates_queuesInOrder hstore).lookup_of_mem (List.mem_map_of_mem hmem)
  exact QueueState.coerce_queueInfo (hstore.queues _ _ hlookup).2

theorem listQueues_handleListQueues (hstore : store.Storable) (header : GoString) :
    listQueues (.answered 200 header (handleListQueues store)) = .ok store.allQueueInfo := by
  have hprintable : Printable maxNestingDepth
      (sliceValue (structValue QueueInfo.fields) store.allQueueInfo) :=
    (printable_sliceValue _ (printable_structValue QueueInfo.fields) _).mono (by decide)
  have hinto := intoSlice_coerce .zero QueueInfo.intoStruct_coerce store.allQueueInfo []
  rw [coerce_allQueueInfo hstore] at hinto
  simp [listQueues, handleListQueues, parse_print_newline hprintable, hinto]

theorem countOutstanding_allQueueInfo (hstore : store.Storable) (queues : List GoString) :
    countOutstanding queues store.allQueueInfo =
      ∑ name ∈ queues.toFinset, (store.queues.lookup name).elim 0
        fun queue => queue.inOrder.length := by
  have hsum := (enumerates_queuesInOrder hstore).sum_lookup
    (fun queue => queue.inOrder.length) queues.toFinset
  rw [← hsum, countOutstanding, allQueueInfo, List.map_map]
  generalize store.queuesInOrder = inOrder
  -- Both sides add up the same queues; the fold starts from any total.
  suffices hfold : ∀ total, (inOrder.map queueInfo).foldl (fun total info =>
      if info.name ∈ queues then total + info.messages.length else total) total =
      total + (inOrder.map ((fun entry => if entry.1 ∈ queues.toFinset then
        entry.2.inOrder.length else 0) ∘ fun queue => (queue.name, queue))).sum by
    simpa using hfold 0
  induction inOrder with
  | nil => simp
  | cons queue rest ih =>
      intro total
      simp only [List.map_cons, List.foldl_cons, ih, List.sum_cons, Function.comp_apply,
        List.mem_toFinset, queueInfo, messagesInOrder, List.length_map]
      split <;> omega

end InMemoryStorage

/-- Whatever log a node has applied, the number that a client reads off the node's listing
is the number of messages in those queues that somebody is still owed. -/
theorem listing_counts_what_is_owed {entries : List LogEntry}
    (hindexed : RaftIndexed (entries.filterMap LogEntry.committed?))
    (hunique : (((entries.filterMap LogEntry.committed?).map Committed.cmd).filterMap
      Command.enqueuedID).Nodup)
    (queues : List GoString) (header : GoString) :
    ∃ infos, listQueues (.answered 200 header
        (handleListQueues (FSM.run .empty entries).2)) = .ok infos ∧
      infos = (FSM.run .empty entries).2.allQueueInfo ∧
      countOutstanding queues infos = ∑ name ∈ queues.toFinset,
        (Command.outstanding name false
          ((entries.filterMap LogEntry.committed?).map Committed.cmd)).length := by
  have hstorable : (FSM.run .empty entries).2.Storable :=
    FSM.run_invariant FSM.storable_apply InMemoryStorage.storable_empty _
  refine ⟨_, InMemoryStorage.listQueues_handleListQueues hstorable header, rfl, ?_⟩
  rw [InMemoryStorage.countOutstanding_allQueueInfo hstorable]
  refine Finset.sum_congr rfl fun name _ => ?_
  obtain ⟨issued, hreflects⟩ :=
    InMemoryStorage.reflects_applyLog hindexed.length_le hunique
  rw [FSM.run_eq_applyLog]
  have hshows := hreflects.shows name
  cases hqueue : (FSM.applyLog .empty (entries.filterMap LogEntry.committed?)).queues.lookup
      name with
  | none =>
      rw [hqueue] at hshows
      simp only [Option.elim_none]
      rw [show Command.outstanding name false _ = [] from hshows]
      rfl
  | some queue =>
      rw [hqueue] at hshows
      obtain ⟨states, hlists, howed, -⟩ := hshows
      simp only [Option.elim_some, hlists.inOrder_eq]
      rw [← howed, List.length_map]

/-- Two messages for one subscriber, who has acked the first, and an entry that is no
command. -/
def halfDrained : List LogEntry :=
  let subs := GoMap.ofList [(lit "a", ⟨lit "a", lit "u", 3⟩)]
  let entry (index : UInt64) (cmd : Command) : LogEntry :=
    { index, data := (cmd.encode.toOption).getD [] }
  [entry 1 (.newCreateQueue (lit "q")), { index := 2, data := lit "noop" },
    entry 3 (.newEnqueue (lit "q") (lit "m") (lit "x") subs),
    entry 4 (.newEnqueue (lit "q") (lit "n") (lit "y") subs),
    entry 5 (.newAck (lit "q") (lit "m") [lit "a"])]

theorem half_drained_counts_one :
    ∃ infos, listQueues (.answered 200 [] (handleListQueues (FSM.run .empty halfDrained).2)) =
        .ok infos ∧ countOutstanding [lit "q", lit "other"] infos = 1 := by
  have hindexed : RaftIndexed (halfDrained.filterMap LogEntry.committed?) := by
    decide +kernel
  have hunique : (((halfDrained.filterMap LogEntry.committed?).map Committed.cmd).filterMap
      Command.enqueuedID).Nodup := by
    decide +kernel
  obtain ⟨infos, hlisted, -, hcount⟩ :=
    listing_counts_what_is_owed hindexed hunique [lit "q", lit "other"] []
  have howed : ∑ name ∈ [lit "q", lit "other"].toFinset,
      (Command.outstanding name false
        ((halfDrained.filterMap LogEntry.committed?).map Committed.cmd)).length = 1 := by
    decide +kernel
  exact ⟨infos, hlisted, hcount.trans howed⟩

end SimonMQ.Dist
