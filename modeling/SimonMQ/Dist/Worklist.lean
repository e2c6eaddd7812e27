import SimonMQ.Dist.Outstanding

namespace SimonMQ.Dist

open SimonMQ.Go

/-! The replicated store as a worklist.  What it should list after a log is said on the
commands alone; the store is then shown to hold exactly that. -/

structure Committed where
  index : UInt64
  cmd : Command

/-- Raft numbers the entries of its log by increasing `uint64` indices. -/
def RaftIndexed (log : List Committed) : Prop :=
  (log.map Committed.index).Pairwise (· < ·)

def FSM.applyLog (store : InMemoryStorage) (log : List Committed) : InMemoryStorage :=
  log.foldl (fun store entry => (applyCommand entry.index store entry.cmd).2) store

def LogEntry.committed? (entry : LogEntry) : Option Committed :=
  match Command.decode entry.data with
  | .ok cmd => some ⟨entry.index, cmd⟩
  | .error _ => none

theorem FSM.run_eq_applyLog (store : InMemoryStorage) (entries : List LogEntry) :
    (run store entries).2 = applyLog store (entries.filterMap LogEntry.committed?) := by
  induction entries generalizing store with
  | nil => rfl
  | cons entry entries ih =>
      rw [run_cons, ih, List.filterMap_cons]
      unfold LogEntry.committed? FSM.apply
      cases Command.decode entry.data <;> rfl

/-! ### The specification -/

structure Owed where
  msgID : GoString
  payload : GoString
  subList : GoMap SubPolicy
  acked : Finset GoString

def Owed.info (msg : Owed) : MessageInfo where
  msgID := msg.msgID
  payload := msg.payload
  subList := msg.subList
  ackedSubs := sortedNames msg.acked

namespace Command

variable (queueName : GoString)

def creates (cmd : Command) : Prop := cmd.type = .createQueue ∧ cmd.queueName = queueName

def deletes (cmd : Command) : Prop := cmd.type = .deleteQueue ∧ cmd.queueName = queueName

def enqueues (cmd : Command) : Prop := cmd.type = .enqueue ∧ cmd.queueName = queueName

def acks (msgID : GoString) (cmd : Command) : Prop :=
  cmd.type = .ack ∧ cmd.queueName = queueName ∧ cmd.msgID = msgID

instance (cmd : Command) : Decidable (cmd.creates queueName) :=
  inferInstanceAs (Decidable (_ ∧ _))

instance (cmd : Command) : Decidable (cmd.deletes queueName) :=
  inferInstanceAs (Decidable (_ ∧ _))

instance (cmd : Command) : Decidable (cmd.enqueues queueName) :=
  inferInstanceAs (Decidable (_ ∧ _))

instance (msgID : GoString) (cmd : Command) : Decidable (cmd.acks queueName msgID) :=
  inferInstanceAs (Decidable (_ ∧ _))

def enqueuedID (cmd : Command) : Option GoString :=
  if cmd.type = .enqueue then some cmd.msgID else none

def knows (known : Bool) (cmd : Command) : Bool :=
  if cmd.creates queueName then true
  else if cmd.deletes queueName then false
  else known

def mentioned (msgID : GoString) (cmds : List Command) : Finset GoString :=
  ((cmds.filter fun cmd => cmd.acks queueName msgID).flatMap subNames).toFinset

/-- The command is an `Enqueue` to the queue that found it and had subscribers; since
then the queue was not deleted, and not all of them were mentioned in acks. -/
def Remains (known : Bool) (cmd : Command) (later : List Command) : Prop :=
  cmd.enqueues queueName ∧ known ∧ 0 < cmd.subList.len ∧
    (∀ other ∈ later, ¬ other.deletes queueName) ∧
    ¬ cmd.subList.keys ⊆ mentioned queueName cmd.msgID later

instance (known : Bool) (cmd : Command) (later : List Command) :
    Decidable (cmd.Remains queueName known later) :=
  inferInstanceAs (Decidable (_ ∧ _ ∧ _ ∧ _ ∧ _))

def owed (known : Bool) (cmd : Command) (later : List Command) : Option Owed :=
  if cmd.Remains queueName known later then
    some ⟨cmd.msgID, cmd.payload, cmd.subList,
      cmd.subList.keys ∩ mentioned queueName cmd.msgID later⟩
  else none

/-- The messages of the queue that somebody is still owed, in log order. -/
def outstanding : Bool → List Command → List Owed
  | _, [] => []
  | known, cmd :: later =>
      (cmd.owed queueName known later).toList ++
        outstanding (cmd.knows queueName known) later

def affect (cmd : Command) (msg : Owed) : Option Owed :=
  if cmd.deletes queueName then none
  else if cmd.acks queueName msg.msgID then
    let acked := msg.acked ∪ (msg.subList.keys ∩ cmd.subNames.toFinset)
    if msg.subList.keys ⊆ acked then none else some { msg with acked }
  else some msg

variable {queueName}

theorem mentioned_snoc (msgID : GoString) (later : List Command) (last : Command) :
    mentioned queueName msgID (later ++ [last]) =
      mentioned queueName msgID later ∪
        if last.acks queueName msgID then last.subNames.toFinset else ∅ := by
  unfold mentioned
  by_cases hacks : last.acks queueName msgID <;>
    simp [hacks, List.toFinset_append]

theorem remains_snoc (known : Bool) (cmd : Command) (later : List Command)
    (last : Command) :
    cmd.Remains queueName known (later ++ [last]) ↔
      cmd.Remains queueName known later ∧ ¬ last.deletes queueName ∧
        ¬ cmd.subList.keys ⊆ mentioned queueName cmd.msgID (later ++ [last]) := by
  have hmono : mentioned queueName cmd.msgID later ⊆
      mentioned queueName cmd.msgID (later ++ [last]) := by
    rw [mentioned_snoc]
    exact Finset.subset_union_left
  simp only [Remains, List.mem_append, List.mem_singleton, or_imp, forall_and, forall_eq]
  constructor
  · rintro ⟨henqueue, hknown, hsubs, ⟨hlater, hlast⟩, hleft⟩
    exact ⟨⟨henqueue, hknown, hsubs, hlater, fun hall => hleft (hall.trans hmono)⟩,
      hlast, hleft⟩
  · rintro ⟨⟨henqueue, hknown, hsubs, hlater, _⟩, hlast, hleft⟩
    exact ⟨henqueue, hknown, hsubs, ⟨hlater, hlast⟩, hleft⟩

theorem owed_snoc (known : Bool) (cmd : Command) (later : List Command) (last : Command) :
    cmd.owed queueName known (later ++ [last]) =
      (cmd.owed queueName known later).bind (last.affect queueName) := by
  rw [owed, owed]
  simp only [remains_snoc, mentioned_snoc]
  by_cases hremains : cmd.Remains queueName known later
  · rw [if_pos hremains, Option.bind_some, affect]
    have hleft := hremains.2.2.2.2
    by_cases hdeletes : last.deletes queueName
    · simp [hdeletes]
    · by_cases hacks : last.acks queueName cmd.msgID
      · have hcovered : cmd.subList.keys ⊆ cmd.subList.keys ∩
            (mentioned queueName cmd.msgID later ∪ last.subNames.toFinset) ↔
            cmd.subList.keys ⊆
              mentioned queueName cmd.msgID later ∪ last.subNames.toFinset :=
          ⟨fun hall => hall.trans Finset.inter_subset_right,
            fun hall => Finset.subset_inter subset_rfl hall⟩
        simp only [hremains, hdeletes, hacks, if_true, if_false, not_false_eq_true, true_and,
          ← Finset.inter_union_distrib_left, hcovered, ite_not]
      · simp [hremains, hdeletes, hacks, hleft]
  · rw [if_neg fun hlast => hremains hlast.1, if_neg hremains, Option.bind_none]

theorem outstanding_snoc (known : Bool) (cmds : List Command) (last : Command) :
    outstanding queueName known (cmds ++ [last]) =
      (outstanding queueName known cmds).filterMap (last.affect queueName) ++
        (last.owed queueName (cmds.foldl (knows queueName) known) []).toList := by
  induction cmds generalizing known with
  | nil => simp [outstanding]
  | cons cmd cmds ih =>
      rw [List.cons_append, outstanding, ih, owed_snoc, outstanding, List.filterMap_append,
        List.foldl_cons, List.append_assoc]
      congr 1
      cases hown : cmd.owed queueName known cmds with
      | none => rfl
      | some msg => cases haffect : last.affect queueName msg <;> simp [haffect]

theorem mem_outstanding {known : Bool} {cmds : List Command} {msg : Owed}
    (hmem : msg ∈ outstanding queueName known cmds) :
    msg.msgID ∈ cmds.filterMap enqueuedID ∧ msg.acked ⊆ msg.subList.keys := by
  induction cmds generalizing known with
  | nil => simp [outstanding] at hmem
  | cons cmd cmds ih =>
      rw [outstanding, List.mem_append, Option.mem_toList] at hmem
      rcases hmem with hown | hlater
      · unfold owed at hown
        split at hown
        next howed =>
            cases hown
            refine ⟨List.mem_filterMap.mpr ⟨cmd, List.mem_cons_self, ?_⟩,
              Finset.inter_subset_left⟩
            exact if_pos howed.1.1
        next hnone => contradiction
      · obtain ⟨hid, hacked⟩ := ih hlater
        refine ⟨?_, hacked⟩
        obtain ⟨other, hother, hid⟩ := List.mem_filterMap.mp hid
        exact List.mem_filterMap.mpr ⟨other, List.mem_cons_of_mem _ hother, hid⟩

/-! A command about another queue changes neither what is owed nor what is known. -/

variable {cmd : Command} (hother : cmd.queueName ≠ queueName)

include hother

theorem affect_of_ne : cmd.affect queueName = some := by
  funext msg
  simp [affect, deletes, acks, hother]

theorem knows_of_ne (known : Bool) : cmd.knows queueName known = known := by
  simp [knows, creates, deletes, hother]

theorem owed_of_ne (known : Bool) (later : List Command) :
    cmd.owed queueName known later = none := by
  simp [owed, Remains, enqueues, hother]

end Command

/-! ### The store -/

def MessageState.owed (msg : MessageState) : Owed where
  msgID := msg.msgID
  payload := msg.payload
  subList := msg.subList
  acked := msg.ackedSubs

/-- The messages of a queue, in the order of their sequence numbers. -/
structure QueueState.Lists (queue : QueueState) (states : List MessageState) : Prop where
  lookup_iff : ∀ msgID msg,
    queue.messages.lookup msgID = some msg ↔ msg ∈ states ∧ msg.msgID = msgID
  ordered : states.Pairwise fun left right => left.seq < right.seq

theorem QueueState.Lists.inOrder_eq {queue : QueueState} {states : List MessageState}
    (hlists : queue.Lists states) : queue.inOrder = states := by
  have henum := enumerates_sorted_values queue.messages MessageState.msgID
    (fun msgID msg hlookup => ((hlists.lookup_iff msgID msg).mp hlookup).2)
    fun left right => left.seq ≤ right.seq
  have hmem : ∀ msg, msg ∈ queue.inOrder ↔ msg ∈ states := by
    intro msg
    have hpair : (msg.msgID, msg) ∈ queue.inOrder.map (fun msg => (msg.msgID, msg)) ↔
        msg ∈ queue.inOrder := by
      simp only [List.mem_map, Prod.mk.injEq]
      exact ⟨fun ⟨_, hmem, _, hmsg⟩ => hmsg ▸ hmem, fun hmem => ⟨msg, hmem, rfl, rfl⟩⟩
    rw [← hpair, QueueState.inOrder, henum.2, hlists.lookup_iff]
    simp
  have hnodup : queue.inOrder.Nodup := by
    have hids := henum.1
    rw [List.map_map] at hids
    exact hids.of_map _
  have hseqs : (states.map MessageState.seq).Nodup :=
    List.pairwise_map.mpr (hlists.ordered.imp UInt64.ne_of_lt)
  have : Std.Total fun left right : MessageState => left.seq ≤ right.seq :=
    ⟨fun left right => UInt64.le_total left.seq right.seq⟩
  have : IsTrans MessageState fun left right => left.seq ≤ right.seq :=
    ⟨fun _ _ _ => UInt64.le_trans⟩
  refine List.Perm.eq_of_pairwise ?_ (List.pairwise_insertionSort _ _)
    (hlists.ordered.imp UInt64.le_of_lt)
    ((List.perm_ext_iff_of_nodup hnodup hseqs.of_map).mpr hmem)
  intro first second hfirst hsecond hle hge
  exact List.inj_on_of_nodup_map hseqs ((hmem first).mp hfirst) hsecond
    (UInt64.le_antisymm hle hge)

theorem QueueState.Lists.filterMap {queue next : QueueState} {states : List MessageState}
    (hlists : queue.Lists states) {change : MessageState → Option MessageState}
    (hchange : ∀ {msg after}, change msg = some after →
      after.msgID = msg.msgID ∧ after.seq = msg.seq)
    (hnext : ∀ msgID, next.messages.lookup msgID =
      (queue.messages.lookup msgID).bind change) :
    next.Lists (states.filterMap change) where
  lookup_iff := by
    intro msgID after
    rw [hnext, Option.bind_eq_some_iff, List.mem_filterMap]
    constructor
    · rintro ⟨msg, hlookup, hafter⟩
      obtain ⟨hmem, hid⟩ := (hlists.lookup_iff msgID msg).mp hlookup
      exact ⟨⟨msg, hmem, hafter⟩, (hchange hafter).1.trans hid⟩
    · rintro ⟨⟨msg, hmem, hafter⟩, hid⟩
      exact ⟨msg, (hlists.lookup_iff msgID msg).mpr ⟨hmem, (hchange hafter).1.symm.trans hid⟩,
        hafter⟩
  ordered := by
    refine hlists.ordered.filterMap change ?_
    intro left right hlt first hfirst second hsecond
    rw [(hchange hfirst).2, (hchange hsecond).2]
    exact hlt

def MessageState.afterAck (msgID : GoString) (subNames : List GoString)
    (msg : MessageState) : Option MessageState :=
  if msg.msgID = msgID then msg.acknowledge subNames else some msg

theorem MessageState.afterAck_same {msgID : GoString} {subNames : List GoString}
    {msg after : MessageState} (hafter : msg.afterAck msgID subNames = some after) :
    after.msgID = msg.msgID ∧ after.seq = msg.seq := by
  unfold afterAck at hafter
  split_ifs at hafter
  · unfold acknowledge at hafter
    dsimp only at hafter
    split_ifs at hafter
    cases hafter
    exact ⟨rfl, rfl⟩
  · cases hafter
    exact ⟨rfl, rfl⟩

theorem MessageState.owed_afterAck {cmd : Command} (hack : cmd.type = .ack)
    {msg : MessageState} (hacked : msg.ackedSubs ⊆ msg.subList.keys) :
    (msg.afterAck cmd.msgID cmd.subNames).map MessageState.owed =
      cmd.affect cmd.queueName msg.owed := by
  have hnames : (cmd.subNames.filter fun name => name ∈ msg.subList.keys).toFinset =
      msg.subList.keys ∩ cmd.subNames.toFinset := by
    ext name
    simp [and_comm]
  have hdeletes : ¬ cmd.deletes cmd.queueName := by
    simp [Command.deletes, hack]
  rw [Command.affect, if_neg hdeletes, afterAck]
  by_cases hid : msg.msgID = cmd.msgID
  · have hacks : cmd.acks cmd.queueName msg.owed.msgID := ⟨hack, rfl, hid.symm⟩
    rw [if_pos hid, if_pos hacks]
    simp only [acknowledge, markAcked, hnames, GoMap.len]
    have hsubset : msg.ackedSubs ∪ (msg.subList.keys ∩ cmd.subNames.toFinset) ⊆
        msg.subList.keys := Finset.union_subset hacked Finset.inter_subset_left
    have hcount : msg.subList.keys.card ≤
        (msg.ackedSubs ∪ (msg.subList.keys ∩ cmd.subNames.toFinset)).card ↔
        msg.subList.keys ⊆
          msg.ackedSubs ∪ (msg.subList.keys ∩ cmd.subNames.toFinset) :=
      ⟨fun hle => (Finset.eq_of_subset_of_card_le hsubset hle).ge,
        fun hall => Finset.card_le_card hall⟩
    by_cases hall : msg.subList.keys ⊆
        msg.ackedSubs ∪ (msg.subList.keys ∩ cmd.subNames.toFinset)
    · rw [if_pos (hcount.mpr hall)]
      exact (if_pos hall).symm
    · rw [if_neg (mt hcount.mp hall)]
      exact (if_neg hall).symm
  · have hacks : ¬ cmd.acks cmd.queueName msg.owed.msgID := fun hacks =>
      hid hacks.2.2.symm
    rw [if_neg hid, if_neg hacks]
    rfl

/-- What the store has under a queue name lists the owed messages, with sequence
numbers below `issued`. -/
def Shows (owed : List Owed) (issued : Nat) : Option QueueState → Prop
  | none => owed = []
  | some queue => ∃ states, queue.Lists states ∧ states.map MessageState.owed = owed ∧
      ∀ msg ∈ states, msg.seq.toNat < issued

namespace Shows

variable {owed : List Owed} {issued : Nat} {queue : QueueState}

theorem mono {queue : Option QueueState} (hshows : Shows owed issued queue) {later : Nat}
    (hle : issued ≤ later) : Shows owed later queue := by
  cases queue with
  | none => exact hshows
  | some queue =>
      obtain ⟨states, hlists, howed, hseqs⟩ := hshows
      exact ⟨states, hlists, howed, fun msg hmem => Nat.lt_of_lt_of_le (hseqs msg hmem) hle⟩

theorem of_messages {next : QueueState} (hshows : Shows owed issued (some queue))
    (hmessages : next.messages = queue.messages) : Shows owed issued (some next) := by
  obtain ⟨states, hlists, howed, hseqs⟩ := hshows
  refine ⟨states, ⟨?_, hlists.ordered⟩, howed, hseqs⟩
  rw [hmessages]
  exact hlists.lookup_iff

theorem created {subs : GoMap SubPolicy} {name : GoString} :
    Shows [] issued (some { name, subs, messages := ∅ }) :=
  ⟨[], ⟨by simp, List.Pairwise.nil⟩, rfl, by simp⟩

theorem stored (hshows : Shows owed issued (some queue)) (msg : MessageState)
    (hseq : msg.seq.toNat = issued) (hfresh : queue.messages.lookup msg.msgID = none) :
    Shows (owed ++ [msg.owed]) (issued + 1)
      (some { queue with messages := queue.messages.insert msg.msgID msg }) := by
  obtain ⟨states, hlists, howed, hseqs⟩ := hshows
  refine ⟨states ++ [msg], ⟨?_, ?_⟩, by rw [List.map_append, howed]; rfl, ?_⟩
  · intro msgID other
    rw [GoMap.lookup_insert_eq, List.mem_append, List.mem_singleton]
    by_cases hid : msgID = msg.msgID
    · subst hid
      rw [if_pos rfl]
      have habsent : ¬ (other ∈ states ∧ other.msgID = msg.msgID) := by
        rw [← hlists.lookup_iff, hfresh]
        simp
      constructor
      · intro hother
        cases hother
        exact ⟨.inr rfl, rfl⟩
      · rintro ⟨hmem | rfl, hother⟩
        · exact absurd ⟨hmem, hother⟩ habsent
        · rfl
    · rw [if_neg hid, hlists.lookup_iff]
      constructor
      · rintro ⟨hmem, hother⟩
        exact ⟨.inl hmem, hother⟩
      · rintro ⟨hmem | rfl, hother⟩
        · exact ⟨hmem, hother⟩
        · exact absurd hother.symm hid
  · rw [List.pairwise_append]
    refine ⟨hlists.ordered, List.pairwise_singleton _ _, ?_⟩
    intro earlier hearlier later hlater
    rw [List.mem_singleton.mp hlater, UInt64.lt_iff_toNat_lt, hseq]
    exact hseqs earlier hearlier
  · intro other hmem
    rcases List.mem_append.mp hmem with hold | hnew
    · exact Nat.lt_succ_of_lt (hseqs other hold)
    · rw [List.mem_singleton.mp hnew, hseq]
      exact Nat.lt_succ_self issued

theorem settled (hshows : Shows owed issued (some queue)) {cmd : Command}
    (hack : cmd.type = .ack) (hacked : ∀ msg ∈ owed, msg.acked ⊆ msg.subList.keys)
    {next : QueueState} (hnext : ∀ msgID, next.messages.lookup msgID =
      (queue.messages.lookup msgID).bind (MessageState.afterAck cmd.msgID cmd.subNames)) :
    Shows (owed.filterMap (cmd.affect cmd.queueName)) issued (some next) := by
  obtain ⟨states, hlists, rfl, hseqs⟩ := hshows
  refine ⟨_, hlists.filterMap MessageState.afterAck_same hnext, ?_, ?_⟩
  · rw [List.map_filterMap, List.filterMap_map]
    apply List.filterMap_congr
    intro msg hmem
    exact MessageState.owed_afterAck hack (hacked msg.owed (List.mem_map_of_mem hmem))
  · intro after hafter
    obtain ⟨msg, hmem, hafter⟩ := List.mem_filterMap.mp hafter
    rw [(MessageState.afterAck_same hafter).2]
    exact hseqs msg hmem

end Shows

structure InMemoryStorage.Reflects (store : InMemoryStorage) (cmds : List Command)
    (issued : Nat) : Prop where
  nextSeq : store.nextSeq = UInt64.ofNat issued
  issued_le : issued ≤ cmds.length
  known : ∀ queueName, (store.queues.lookup queueName).isSome =
    cmds.foldl (Command.knows queueName) false
  shows : ∀ queueName, Shows (Command.outstanding queueName false cmds) issued
    (store.queues.lookup queueName)

namespace InMemoryStorage

theorem reflects_empty : empty.Reflects [] 0 where
  nextSeq := rfl
  issued_le := Nat.le_refl 0
  known := by simp [empty]
  shows := by simp [empty, Shows, Command.outstanding]

variable {store next : InMemoryStorage} {cmds : List Command} {issued later : Nat}
  {cmd : Command}

theorem Reflects.snoc (hreflects : store.Reflects cmds issued)
    (hframe : ∀ other, other ≠ cmd.queueName →
      next.queues.lookup other = store.queues.lookup other)
    (hseq : next.nextSeq = UInt64.ofNat later) (hle : issued ≤ later)
    (hlater : later ≤ cmds.length + 1)
    (hknown : (next.queues.lookup cmd.queueName).isSome =
      cmd.knows cmd.queueName (store.queues.lookup cmd.queueName).isSome)
    (hshows : Shows
      ((Command.outstanding cmd.queueName false cmds).filterMap (cmd.affect cmd.queueName) ++
        (cmd.owed cmd.queueName (store.queues.lookup cmd.queueName).isSome []).toList)
      later (next.queues.lookup cmd.queueName)) :
    next.Reflects (cmds ++ [cmd]) later where
  nextSeq := hseq
  issued_le := by simpa using hlater
  known := by
    intro other
    rw [List.foldl_append, List.foldl_cons, List.foldl_nil, ← hreflects.known]
    by_cases hother : other = cmd.queueName
    · rw [hother, hknown]
    · rw [hframe other hother, Command.knows_of_ne (Ne.symm hother)]
  shows := by
    intro other
    rw [Command.outstanding_snoc, ← hreflects.known]
    by_cases hother : other = cmd.queueName
    · rw [hother]
      exact hshows
    · rw [hframe other hother, Command.affect_of_ne (Ne.symm hother),
        Command.owed_of_ne (Ne.symm hother), List.filterMap_some, Option.toList_none,
        List.append_nil]
      exact (hreflects.shows other).mono hle

theorem lookup_setQueue (store : InMemoryStorage) (name other : GoString)
    (queue : QueueState) :
    (store.setQueue name queue).queues.lookup other =
      if other = name then some queue else store.queues.lookup other :=
  GoMap.lookup_insert_eq store.queues name other queue

theorem Reflects.snoc_inert (hreflects : store.Reflects cmds issued)
    (htype : cmd.type ≠ .deleteQueue ∧ cmd.type ≠ .ack)
    (hframe : ∀ other, other ≠ cmd.queueName →
      next.queues.lookup other = store.queues.lookup other)
    (hseq : next.nextSeq = UInt64.ofNat later) (hle : issued ≤ later)
    (hlater : later ≤ cmds.length + 1)
    (hknown : (next.queues.lookup cmd.queueName).isSome =
      cmd.knows cmd.queueName (store.queues.lookup cmd.queueName).isSome)
    (howed : cmd.owed cmd.queueName (store.queues.lookup cmd.queueName).isSome [] = none)
    (hshows : Shows (Command.outstanding cmd.queueName false cmds) later
      (next.queues.lookup cmd.queueName)) :
    next.Reflects (cmds ++ [cmd]) later := by
  have haffect : cmd.affect cmd.queueName = some := by
    funext msg
    simp [Command.affect, Command.deletes, Command.acks, htype]
  refine hreflects.snoc hframe hseq hle hlater hknown ?_
  rw [haffect, List.filterMap_some, howed, Option.toList_none, List.append_nil]
  exact hshows

theorem lookup_setQueue_self (store : InMemoryStorage) (name : GoString)
    (queue : QueueState) : (store.setQueue name queue).queues.lookup name = some queue := by
  rw [lookup_setQueue, if_pos rfl]

theorem lookup_setQueue_of_ne (store : InMemoryStorage) {name other : GoString}
    (hother : other ≠ name) (queue : QueueState) :
    (store.setQueue name queue).queues.lookup other = store.queues.lookup other := by
  rw [lookup_setQueue, if_neg hother]

theorem Reflects.createQueue (hreflects : store.Reflects cmds issued)
    (htype : cmd.type = .createQueue) (index : UInt64) :
    (FSM.applyCommand index store cmd).2.Reflects (cmds ++ [cmd]) issued := by
  have hinert : cmd.type ≠ .deleteQueue ∧ cmd.type ≠ .ack := by simp [htype]
  have howed : ∀ known, cmd.owed cmd.queueName known [] = none := by
    simp [Command.owed, Command.Remains, Command.enqueues, htype]
  have hknows : ∀ known, cmd.knows cmd.queueName known = true := by
    simp [Command.knows, Command.creates, htype]
  have hshows := hreflects.shows cmd.queueName
  have hlater := Nat.le_succ_of_le hreflects.issued_le
  simp only [FSM.applyCommand, htype, InMemoryStorage.createQueue]
  cases hqueue : store.queues.lookup cmd.queueName with
  | some queue =>
      change store.Reflects (cmds ++ [cmd]) issued
      exact hreflects.snoc_inert hinert (fun _ _ => rfl) hreflects.nextSeq (Nat.le_refl _)
        hlater (by rw [hknows, hqueue]; rfl) (howed _) hshows
  | none =>
      rw [hqueue] at hshows
      refine hreflects.snoc_inert hinert
        (fun _ hother => store.lookup_setQueue_of_ne hother _) hreflects.nextSeq
        (Nat.le_refl _) hlater ?_ (howed _) ?_
      · rw [hknows]
        exact congrArg Option.isSome (store.lookup_setQueue_self _ _)
      · rw [show Command.outstanding cmd.queueName false cmds = [] from hshows]
        exact (store.lookup_setQueue_self _ _).symm ▸ Shows.created

theorem Reflects.deleteQueue (hreflects : store.Reflects cmds issued)
    (htype : cmd.type = .deleteQueue) (index : UInt64) :
    (FSM.applyCommand index store cmd).2.Reflects (cmds ++ [cmd]) issued := by
  have haffect : cmd.affect cmd.queueName = fun _ => none := by
    funext msg
    simp [Command.affect, Command.deletes, htype]
  have howed : ∀ known, cmd.owed cmd.queueName known [] = none := by
    simp [Command.owed, Command.Remains, Command.enqueues, htype]
  have hknows : ∀ known, cmd.knows cmd.queueName known = false := by
    simp [Command.knows, Command.creates, Command.deletes, htype]
  have hlater := Nat.le_succ_of_le hreflects.issued_le
  have hgone : ∀ {next : InMemoryStorage}, next.nextSeq = store.nextSeq →
      (∀ other, next.queues.lookup other =
        if other = cmd.queueName then none else store.queues.lookup other) →
      next.Reflects (cmds ++ [cmd]) issued := by
    intro next hseq hlookup
    refine hreflects.snoc (fun other hother => by rw [hlookup, if_neg hother])
      (hseq.trans hreflects.nextSeq) (Nat.le_refl _) hlater ?_ ?_
    · rw [hknows, hlookup, if_pos rfl]
      rfl
    · rw [hlookup, if_pos rfl, haffect, howed]
      simp [Shows]
  simp only [FSM.applyCommand, htype, InMemoryStorage.deleteQueue]
  cases hqueue : store.queues.lookup cmd.queueName with
  | none =>
      refine hgone rfl fun other => ?_
      by_cases hother : other = cmd.queueName
      · rw [if_pos hother, hother]
        exact hqueue
      · rw [if_neg hother]
        rfl
  | some queue =>
      exact hgone rfl fun other => GoMap.lookup_erase_eq store.queues cmd.queueName other

theorem Reflects.edit (hreflects : store.Reflects cmds issued)
    (htype : cmd.type ≠ .createQueue ∧ cmd.type ≠ .deleteQueue ∧ cmd.type ≠ .enqueue ∧
      cmd.type ≠ .ack)
    (hseq : next.nextSeq = store.nextSeq)
    (hqueues : next.queues = store.queues ∨ ∃ old queue,
      store.queues.lookup cmd.queueName = some old ∧ queue.messages = old.messages ∧
        next.queues = store.queues.insert cmd.queueName queue) :
    next.Reflects (cmds ++ [cmd]) issued := by
  have hknows : ∀ known, cmd.knows cmd.queueName known = known := by
    simp [Command.knows, Command.creates, Command.deletes, htype]
  have howed : ∀ known, cmd.owed cmd.queueName known [] = none := by
    simp [Command.owed, Command.Remains, Command.enqueues, htype]
  have hshows := hreflects.shows cmd.queueName
  have hlater := Nat.le_succ_of_le hreflects.issued_le
  rcases hqueues with hsame | ⟨old, queue, hold, hmessages, hinsert⟩
  · exact hreflects.snoc_inert ⟨htype.2.1, htype.2.2.2⟩ (fun _ _ => by rw [hsame])
      (hseq.trans hreflects.nextSeq) (Nat.le_refl _) hlater (by rw [hknows, hsame])
      (howed _) (hsame ▸ hshows)
  · have hlookup : next.queues.lookup cmd.queueName = some queue := by
      rw [hinsert, GoMap.lookup_insert_eq, if_pos rfl]
    refine hreflects.snoc_inert ⟨htype.2.1, htype.2.2.2⟩
      (fun other hother => by rw [hinsert, GoMap.lookup_insert_eq, if_neg hother])
      (hseq.trans hreflects.nextSeq) (Nat.le_refl _) hlater ?_ (howed _) ?_
    · rw [hknows, hlookup, hold]
      rfl
    · rw [hold] at hshows
      rw [hlookup]
      exact hshows.of_messages hmessages

theorem Reflects.lookup_fresh (hreflects : store.Reflects cmds issued) {queueName : GoString}
    {queue : QueueState} (hqueue : store.queues.lookup queueName = some queue)
    {msgID : GoString} (hfresh : msgID ∉ cmds.filterMap Command.enqueuedID) :
    queue.messages.lookup msgID = none := by
  have hshows := hreflects.shows queueName
  rw [hqueue] at hshows
  obtain ⟨states, hlists, howed, _⟩ := hshows
  rw [Option.eq_none_iff_forall_ne_some]
  intro msg hlookup
  obtain ⟨hmem, hid⟩ := (hlists.lookup_iff msgID msg).mp hlookup
  have hlisted : msg.owed ∈ Command.outstanding queueName false cmds :=
    howed ▸ List.mem_map_of_mem hmem
  exact hfresh (hid ▸ (Command.mem_outstanding hlisted).1)

theorem Reflects.enqueue (hreflects : store.Reflects cmds issued)
    (htype : cmd.type = .enqueue) (hfresh : cmd.msgID ∉ cmds.filterMap Command.enqueuedID)
    (hroom : cmds.length < 2 ^ 64) (index : UInt64) :
    ∃ later, (FSM.applyCommand index store cmd).2.Reflects (cmds ++ [cmd]) later := by
  have hinert : cmd.type ≠ .deleteQueue ∧ cmd.type ≠ .ack := by simp [htype]
  have hknows : ∀ known, cmd.knows cmd.queueName known = known := by
    simp [Command.knows, Command.creates, Command.deletes, htype]
  have hshows := hreflects.shows cmd.queueName
  have hissued := hreflects.issued_le
  have hseq : store.nextSeq.toNat = issued := by
    rw [hreflects.nextSeq, UInt64.toNat_ofNat_of_lt' (by change issued < 2 ^ 64; omega)]
  have hnextSeq : store.nextSeq + 1 = UInt64.ofNat (issued + 1) := by
    rw [hreflects.nextSeq, UInt64.ofNat_add]
    rfl
  have hle : issued + 1 ≤ cmds.length + 1 := Nat.succ_le_succ hissued
  simp only [FSM.applyCommand, htype, InMemoryStorage.enqueue]
  cases hqueue : store.queues.lookup cmd.queueName with
  | none =>
      refine ⟨issued, ?_⟩
      change store.Reflects (cmds ++ [cmd]) issued
      exact hreflects.snoc_inert hinert (fun _ _ => rfl) hreflects.nextSeq (Nat.le_refl _)
        (Nat.le_succ_of_le hissued) (by rw [hknows])
        (by simp [Command.owed, Command.Remains, hqueue]) hshows
  | some queue =>
      have hnone := hreflects.lookup_fresh hqueue hfresh
      refine ⟨issued + 1, ?_⟩
      simp only [hnone, newMessage]
      by_cases hsubs : 0 < cmd.subList.len
      · simp only [hsubs, if_true]
        rw [hqueue] at hshows
        have hstored := hshows.stored
          (store.newMessage cmd.msgID cmd.payload cmd.subList) hseq hnone
        have howed : cmd.owed cmd.queueName true [] =
            some (store.newMessage cmd.msgID cmd.payload cmd.subList).owed := by
          have hnonempty : cmd.subList.keys.Nonempty := Finset.card_pos.mp hsubs
          have hremains : cmd.Remains cmd.queueName true [] :=
            ⟨⟨htype, rfl⟩, rfl, hsubs, by simp, fun hall =>
              hnonempty.ne_empty (Finset.subset_empty.mp hall)⟩
          rw [Command.owed, if_pos hremains]
          simp [Command.mentioned, MessageState.owed, newMessage]
        have haffect : cmd.affect cmd.queueName = some := by
          funext msg
          simp [Command.affect, Command.deletes, Command.acks, htype]
        refine hreflects.snoc (fun other hother => GoMap.lookup_insert_eq _ _ _ _ |>.trans
          (if_neg hother)) hnextSeq (Nat.le_succ _) hle ?_ ?_
        · rw [hknows, hqueue, lookup_setQueue_self]
          rfl
        · rw [haffect, List.filterMap_some, hqueue, Option.isSome_some, howed]
          exact (lookup_setQueue_self _ _ _).symm ▸ hstored
      · simp only [hsubs, if_false]
        exact hreflects.snoc_inert hinert (fun _ _ => rfl) hnextSeq (Nat.le_succ _) hle
          (by rw [hknows]) (by simp [Command.owed, Command.Remains, hsubs])
          (hshows.mono (Nat.le_succ _))

theorem Reflects.ack (hreflects : store.Reflects cmds issued) (htype : cmd.type = .ack)
    (index : UInt64) :
    (FSM.applyCommand index store cmd).2.Reflects (cmds ++ [cmd]) issued := by
  have howed : ∀ known, cmd.owed cmd.queueName known [] = none := by
    simp [Command.owed, Command.Remains, Command.enqueues, htype]
  have hknows : ∀ known, cmd.knows cmd.queueName known = known := by
    simp [Command.knows, Command.creates, Command.deletes, htype]
  have hshows := hreflects.shows cmd.queueName
  have hlater := Nat.le_succ_of_le hreflects.issued_le
  simp only [FSM.applyCommand, htype, InMemoryStorage.ack]
  cases hqueue : store.queues.lookup cmd.queueName with
  | none =>
      change store.Reflects (cmds ++ [cmd]) issued
      rw [hqueue] at hshows
      refine hreflects.snoc (fun _ _ => rfl) hreflects.nextSeq (Nat.le_refl _) hlater
        (by rw [hknows]) ?_
      rw [howed, show Command.outstanding cmd.queueName false cmds = [] from hshows, hqueue]
      rfl
  | some queue =>
      rw [hqueue] at hshows
      have hkeyed : ∀ msgID msg, queue.messages.lookup msgID = some msg →
          msg.msgID = msgID := by
        obtain ⟨states, hlists, _⟩ := hshows
        exact fun msgID msg hlookup => ((hlists.lookup_iff msgID msg).mp hlookup).2
      have hacked : ∀ msg ∈ Command.outstanding cmd.queueName false cmds,
          msg.acked ⊆ msg.subList.keys :=
        fun msg hmem => (Command.mem_outstanding hmem).2
      have hothers : ∀ other, other ≠ cmd.msgID → (queue.messages.lookup other).bind
          (MessageState.afterAck cmd.msgID cmd.subNames) = queue.messages.lookup other := by
        intro other hother
        cases hmsg : queue.messages.lookup other with
        | none => rfl
        | some msg => exact if_neg fun hid => hother ((hkeyed other msg hmsg).symm.trans hid)
      dsimp only
      cases hmsg : queue.messages.lookup cmd.msgID with
      | none =>
          change store.Reflects (cmds ++ [cmd]) issued
          refine hreflects.snoc (fun _ _ => rfl) hreflects.nextSeq (Nat.le_refl _) hlater
            (by rw [hknows]) ?_
          rw [howed, hqueue, Option.toList_none, List.append_nil]
          refine hshows.settled htype hacked fun other => ?_
          by_cases hother : other = cmd.msgID
          · rw [hother, hmsg, Option.bind_none]
          · exact (hothers other hother).symm
      | some msg =>
          refine hreflects.snoc (fun _ hother => store.lookup_setQueue_of_ne hother _)
            hreflects.nextSeq (Nat.le_refl _) hlater ?_ ?_
          · rw [hknows, hqueue, lookup_setQueue_self]
            rfl
          · rw [howed, lookup_setQueue_self, Option.toList_none, List.append_nil]
            refine hshows.settled htype hacked fun other => ?_
            by_cases hother : other = cmd.msgID
            · rw [hother, hmsg, Option.bind_some, MessageState.afterAck,
                if_pos (hkeyed _ _ hmsg), MessageState.acknowledge]
              dsimp only
              split_ifs
              · rw [GoMap.lookup_erase_eq, if_pos rfl]
              · rw [GoMap.lookup_insert_eq, if_pos rfl]
            · rw [hothers other hother]
              dsimp only
              split_ifs
              · rw [GoMap.lookup_erase_eq, if_neg hother]
              · rw [GoMap.lookup_insert_eq, if_neg hother]

theorem Reflects.applyCommand (hreflects : store.Reflects cmds issued)
    (hfresh : ∀ msgID ∈ cmd.enqueuedID, msgID ∉ cmds.filterMap Command.enqueuedID)
    (hroom : cmds.length < 2 ^ 64) (index : UInt64) :
    ∃ later, (FSM.applyCommand index store cmd).2.Reflects (cmds ++ [cmd]) later := by
  cases htype : cmd.type with
  | createQueue => exact ⟨issued, hreflects.createQueue htype index⟩
  | deleteQueue => exact ⟨issued, hreflects.deleteQueue htype index⟩
  | enqueue =>
      exact hreflects.enqueue htype (hfresh cmd.msgID (if_pos htype)) hroom index
  | ack => exact ⟨issued, hreflects.ack htype index⟩
  | putSubPolicy =>
      refine ⟨issued, ?_⟩
      simp only [FSM.applyCommand, htype, InMemoryStorage.putSubPolicy]
      cases hqueue : store.queues.lookup cmd.queueName with
      | none => exact hreflects.edit (by simp [htype]) rfl (.inl rfl)
      | some queue =>
          exact hreflects.edit (by simp [htype]) rfl (.inr ⟨queue,
            { queue with subs := queue.subs.insert cmd.policy.subName cmd.policy },
            hqueue, rfl, rfl⟩)
  | deleteSubPolicy =>
      refine ⟨issued, ?_⟩
      simp only [FSM.applyCommand, htype, InMemoryStorage.deleteSubPolicy]
      cases hqueue : store.queues.lookup cmd.queueName with
      | none => exact hreflects.edit (by simp [htype]) rfl (.inl rfl)
      | some queue =>
          exact hreflects.edit (by simp [htype]) rfl (.inr ⟨queue,
            { queue with subs := queue.subs.erase cmd.subName }, hqueue, rfl, rfl⟩)
  | unknown code =>
      refine ⟨issued, ?_⟩
      simp only [FSM.applyCommand, htype]
      exact hreflects.edit (by simp [htype]) rfl (.inl rfl)

theorem reflects_applyLog {log : List Committed} (hroom : log.length ≤ 2 ^ 64)
    (hunique : ((log.map Committed.cmd).filterMap Command.enqueuedID).Nodup) :
    ∃ issued, (FSM.applyLog empty log).Reflects (log.map Committed.cmd) issued := by
  induction log using List.reverseRecOn with
  | nil => exact ⟨0, reflects_empty⟩
  | append_singleton log entry ih =>
      rw [List.map_append, List.filterMap_append, List.nodup_append] at hunique
      rw [List.length_append] at hroom
      obtain ⟨issued, hreflects⟩ := ih (Nat.le_of_succ_le hroom) hunique.1
      rw [FSM.applyLog, List.foldl_append, List.map_append]
      have hbelow : (log.map Committed.cmd).length < 2 ^ 64 := by
        rw [List.length_map]
        exact hroom
      refine hreflects.applyCommand ?_ hbelow entry.index
      intro msgID hid hused
      refine hunique.2.2 msgID hused msgID ?_ rfl
      exact List.mem_filterMap.mpr ⟨entry.cmd, List.mem_singleton.mpr rfl, hid⟩

end InMemoryStorage

theorem RaftIndexed.length_le {log : List Committed} (hindexed : RaftIndexed log) :
    log.length ≤ 2 ^ 64 := by
  have hnodup : (log.map fun entry => entry.index.toNat).Nodup :=
    List.pairwise_map.mpr ((List.pairwise_map.mp hindexed).imp fun hlt =>
      Nat.ne_of_lt (UInt64.lt_iff_toNat_lt.mp hlt))
  have hsubset : (log.map fun entry => entry.index.toNat) ⊆ List.range (2 ^ 64) := by
    intro index hmem
    obtain ⟨entry, _, rfl⟩ := List.mem_map.mp hmem
    exact List.mem_range.mpr entry.index.toNat_lt
  have hlength := (List.subperm_of_subset hnodup hsubset).length_le
  rwa [List.length_map, List.length_range] at hlength

instance (log : List Committed) : Decidable (RaftIndexed log) :=
  inferInstanceAs (Decidable (List.Pairwise _ _))

/-- After any log in which no message id is enqueued twice, a queue lists exactly the
messages that somebody is still owed, in log order; a queue that does not exist has
none. -/
theorem pendingMessages_are_outstanding {log : List Committed} (hindexed : RaftIndexed log)
    (hunique : ((log.map Committed.cmd).filterMap Command.enqueuedID).Nodup)
    (queueName : GoString) :
    match (FSM.applyLog .empty log).pendingMessages queueName with
    | .ok msgs =>
        msgs = (Command.outstanding queueName false (log.map Committed.cmd)).map Owed.info
    | .error err => err = .queueNotFound ∧
        Command.outstanding queueName false (log.map Committed.cmd) = [] := by
  obtain ⟨issued, hreflects⟩ :=
    InMemoryStorage.reflects_applyLog hindexed.length_le hunique
  have hshows := hreflects.shows queueName
  unfold InMemoryStorage.pendingMessages
  cases hqueue : (FSM.applyLog .empty log).queues.lookup queueName with
  | none =>
      rw [hqueue] at hshows
      exact ⟨rfl, hshows⟩
  | some queue =>
      rw [hqueue] at hshows
      obtain ⟨states, hlists, howed, _⟩ := hshows
      change messagesInOrder queue = _
      rw [messagesInOrder, hlists.inOrder_eq, ← howed, List.map_map]
      rfl

/-- Two messages in a queue that was deleted and made again, of which one is settled
and the other is acked by one of its two subscribers. -/
theorem recreated_queue_lists_outstanding :
    let a : SubPolicy := ⟨lit "a", lit "u", 3⟩
    let b : SubPolicy := ⟨lit "b", lit "v", 3⟩
    let log : List Committed :=
      [⟨1, .newCreateQueue (lit "q")⟩,
        ⟨2, .newEnqueue (lit "q") (lit "m") (lit "x") (GoMap.ofList [(lit "a", a)])⟩,
        ⟨3, .newDeleteQueue (lit "q")⟩,
        ⟨4, .newCreateQueue (lit "q")⟩,
        ⟨6, .newEnqueue (lit "q") (lit "n") (lit "y") (GoMap.ofList [(lit "a", a)])⟩,
        ⟨7, .newEnqueue (lit "q") (lit "o") (lit "z")
          (GoMap.ofList [(lit "a", a), (lit "b", b)])⟩,
        ⟨8, .newAck (lit "q") (lit "n") [lit "a"]⟩,
        ⟨9, .newAck (lit "q") (lit "o") [lit "b", lit "c"]⟩]
    RaftIndexed log ∧
      ((log.map Committed.cmd).filterMap Command.enqueuedID).Nodup ∧
      match (FSM.applyLog .empty log).pendingMessages (lit "q") with
      | .ok msgs =>
          msgs = (Command.outstanding (lit "q") false (log.map Committed.cmd)).map Owed.info
      | .error err => err = .queueNotFound ∧
          Command.outstanding (lit "q") false (log.map Committed.cmd) = [] := by
  intro a b log
  have hindexed : RaftIndexed log := by decide +kernel
  have hunique : ((log.map Committed.cmd).filterMap Command.enqueuedID).Nodup := by
    decide +kernel
  exact ⟨hindexed, hunique, pendingMessages_are_outstanding hindexed hunique (lit "q")⟩

end SimonMQ.Dist
