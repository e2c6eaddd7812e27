import SimonMQ.Durable.InStep
import SimonMQ.Durable.Reading
import SimonMQ.Durable.Restart

namespace SimonMQ.Durable

open SimonMQ.Go
open SimonMQ.Transition

/-! What a broker comes up with after it was stopped at any point. -/

namespace Broker

variable {b next : Broker}

/-- A queue object that no worker has touched. -/
def resumedQueue (name : GoString) (buf : List QueueMsg) : Queue :=
  { newQueue name with buf, hasWork := !buf.isEmpty }

theorem resumedQueue_add (name : GoString) (buf : List QueueMsg) (msg : QueueMsg) :
    (resumedQueue name buf).add msg = resumedQueue name (buf ++ [msg]) := by
  simp [resumedQueue, Queue.add]

/-- Every object is registered, and all it has is its stock. -/
structure Stocks (b : Broker) (stock : GoString → List QueueMsg) : Prop where
  object : ∀ name object, b.queues.lookup name = some object →
    b.objects[object]? = some (resumedQueue name (stock name))
  registered : ∀ i < b.objects.length, ∃ name, b.queues.lookup name = some i

namespace Stocks

variable {stock : GoString → List QueueMsg}

theorem register (hstocks : b.Stocks fun _ => []) {name : GoString}
    (hnew : b.queues.lookup name = none) : (b.register name).Stocks fun _ => [] := by
  constructor
  · intro other object hlookup
    simp only [Broker.register, GoMap.lookup_insert_eq] at hlookup
    split_ifs at hlookup with hsame
    · cases hlookup
      subst hsame
      simp [Broker.register, resumedQueue, newQueue]
    · have hobject := hstocks.object other object hlookup
      have hlt := (List.getElem?_eq_some_iff.mp hobject).1
      rw [Broker.register, List.getElem?_append_left hlt, hobject]
  · intro i hi
    simp only [Broker.register, List.length_append, List.length_singleton] at hi
    rcases Nat.lt_succ_iff_lt_or_eq.mp hi with hold | rfl
    · obtain ⟨other, hother⟩ := hstocks.registered i hold
      refine ⟨other, ?_⟩
      rw [Broker.register, GoMap.lookup_insert_eq, if_neg, hother]
      rintro rfl
      rw [hnew] at hother
      contradiction
    · exact ⟨name, (GoMap.lookup_insert_eq _ _ _ _).trans (if_pos rfl)⟩

theorem createFromWAL (hstocks : b.Stocks fun _ => []) (name : GoString) :
    (b.createFromWAL name).Stocks fun _ => [] := by
  unfold Broker.createFromWAL
  split_ifs with hold hfull
  · exact hstocks
  · exact hstocks
  · exact hstocks.register (Finmap.lookup_eq_none.mpr hold)

theorem foldl_createFromWAL (hstocks : b.Stocks fun _ => []) (names : List GoString) :
    (names.foldl Broker.createFromWAL b).Stocks fun _ => [] := by
  induction names generalizing b with
  | nil => exact hstocks
  | cons name names ih => exact ih (hstocks.createFromWAL name)

theorem enqueueFromWAL (hstocks : b.Stocks stock) (queueName msgId : GoString)
    (msg : Message) :
    (b.enqueueFromWAL queueName msgId msg).Stocks (Function.update stock queueName
      (stock queueName ++ [newQueueMsg msgId msg.content msg.subList msg.ackedSubs])) := by
  unfold Broker.enqueueFromWAL
  cases hlookup : b.queues.lookup queueName with
  | none =>
      refine ⟨fun name object hobject => ?_, hstocks.registered⟩
      have hother : name ≠ queueName := by
        rintro rfl
        rw [hlookup] at hobject
        contradiction
      rw [Function.update_of_ne hother]
      exact hstocks.object name object hobject
  | some object =>
      have hq := hstocks.object queueName object hlookup
      simp only [updateObject, hq]
      refine ⟨fun name found hfound => ?_, fun i hi => hstocks.registered i ?_⟩
      · rw [getElem?_setObject hq]
        by_cases hsame : name = queueName
        · subst hsame
          change b.queues.lookup name = some found at hfound
          rw [hlookup] at hfound
          cases hfound
          rw [if_pos rfl, Function.update_self, resumedQueue_add]
        · have hobject := hstocks.object name found hfound
          have hfoundNe : found ≠ object := by
            rintro rfl
            rw [hq] at hobject
            exact hsame (congrArg Queue.name (Option.some.inj hobject)).symm
          rw [if_neg hfoundNe, Function.update_of_ne hsame, hobject]
      · simpa [Broker.setObject] using hi

end Stocks

/-- The messages of a queue that `RestoreWAL` adds, in the order of its walk. -/
def resumed (entries : List (GoString × Message)) : List QueueMsg :=
  (entries.filter fun entry => entry.2.hasUnackedSubs).map fun entry =>
    newQueueMsg entry.1 entry.2.content entry.2.subList entry.2.ackedSubs

theorem resumed_cons (entry : GoString × Message) (entries : List (GoString × Message)) :
    resumed (entry :: entries) =
      if entry.2.hasUnackedSubs then
        newQueueMsg entry.1 entry.2.content entry.2.subList entry.2.ackedSubs ::
          resumed entries
      else resumed entries := by
  cases hunacked : entry.2.hasUnackedSubs <;> simp [resumed, hunacked]

theorem Stocks.foldl_messages {stock : GoString → List QueueMsg} (hstocks : b.Stocks stock)
    (queueName : GoString) (entries : List (GoString × Message)) :
    (entries.foldl (fun b msg =>
        if msg.2.hasUnackedSubs then b.enqueueFromWAL queueName msg.1 msg.2 else b) b).Stocks
      (Function.update stock queueName (stock queueName ++ resumed entries)) := by
  induction entries generalizing b stock with
  | nil => simpa [resumed] using hstocks
  | cons entry entries ih =>
      rw [List.foldl_cons, resumed_cons]
      by_cases hunacked : entry.2.hasUnackedSubs = true
      · rw [if_pos hunacked, if_pos hunacked]
        have hnext := ih (hstocks.enqueueFromWAL queueName entry.1 entry.2)
        rwa [Function.update_idem, Function.update_self, List.append_assoc] at hnext
      · rw [if_neg hunacked, if_neg hunacked]
        exact ih hstocks

theorem Stocks.restoreMessages {stock : GoString → List QueueMsg} (hstocks : b.Stocks stock)
    (order : GoMap.Order Message) (entry : GoString × GoMap Message) :
    (restoreMessages order b entry).Stocks
      (Function.update stock entry.1 (stock entry.1 ++ resumed (order.walk entry.2))) := by
  unfold Broker.restoreMessages
  split_ifs with hregistered
  · exact hstocks.foldl_messages entry.1 (order.walk entry.2)
  · refine ⟨fun name object hlookup => ?_, hstocks.registered⟩
    have hother : name ≠ entry.1 := by
      rintro rfl
      exact hregistered (Finmap.mem_iff.mpr ⟨object, hlookup⟩)
    rw [Function.update_of_ne hother]
    exact hstocks.object name object hlookup

theorem Stocks.foldl_deliveries {stock : GoString → List QueueMsg} (hstocks : b.Stocks stock)
    (order : GoMap.Order Message) {entries : List (GoString × GoMap Message)}
    (hnodup : (entries.map Prod.fst).Nodup) :
    ∃ after, (entries.foldl (Broker.restoreMessages order) b).Stocks after ∧
      (∀ entry ∈ entries, after entry.1 = stock entry.1 ++ resumed (order.walk entry.2)) ∧
      ∀ name, name ∉ entries.map Prod.fst → after name = stock name := by
  induction entries generalizing b stock with
  | nil => exact ⟨stock, hstocks, by simp, by simp⟩
  | cons entry entries ih =>
      rw [List.map_cons, List.nodup_cons] at hnodup
      obtain ⟨after, hafter, hwalked, hrest⟩ :=
        ih (hstocks.restoreMessages order entry) hnodup.2
      refine ⟨after, hafter, fun other hmem => ?_, fun name hname => ?_⟩
      · rcases List.mem_cons.mp hmem with rfl | hlater
        · rw [hrest other.1 hnodup.1, Function.update_self]
        · have hother : other.1 ≠ entry.1 := fun heq =>
            hnodup.1 (heq ▸ List.mem_map_of_mem hlater)
          rw [hwalked other hlater, Function.update_of_ne hother]
      · rw [List.map_cons, List.mem_cons, not_or] at hname
        rw [hrest name hname.2, Function.update_of_ne hname.1]

theorem keys_foldl_createFromWAL {names : List GoString} (hnodup : names.Nodup)
    (hnew : ∀ name ∈ names, name ∉ b.queues) (hcount : b.numQueues = b.queues.len)
    (hroom : b.queues.len + names.length ≤ 128) :
    (names.foldl createFromWAL b).queues.keys = b.queues.keys ∪ names.toFinset ∧
      (names.foldl createFromWAL b).numQueues =
        (names.foldl createFromWAL b).queues.len := by
  induction names generalizing b with
  | nil => simp [hcount]
  | cons name names ih =>
      rw [List.nodup_cons] at hnodup
      have hfresh := hnew name List.mem_cons_self
      have hcreated : b.createFromWAL name = b.register name := by
        rw [Broker.createFromWAL, if_neg hfresh, if_neg]
        rw [hcount]
        simp only [List.length_cons] at hroom
        omega
      have hkeys : (b.register name).queues.keys = insert name b.queues.keys :=
        GoMap.keys_insert b.queues name _
      have hlen : (b.register name).queues.len = b.queues.len + 1 := by
        rw [GoMap.len, hkeys, Finset.card_insert_of_notMem (mt Finmap.mem_keys.mp hfresh),
          GoMap.len]
      have hlater : ∀ other ∈ names, other ∉ (b.register name).queues := by
        intro other hother hmem
        rcases Finmap.mem_insert.mp hmem with rfl | hold
        · exact hnodup.1 hother
        · exact hnew other (List.mem_cons_of_mem _ hother) hold
      have hnext := ih hnodup.2 hlater
        (by rw [hlen, Broker.register, hcount]; rfl)
        (by rw [hlen]; simp only [List.length_cons] at hroom; omega)
      rw [List.foldl_cons, hcreated]
      refine ⟨?_, hnext.2⟩
      rw [hnext.1, hkeys, List.toFinset_cons, Finset.insert_union, Finset.union_insert]

theorem foldl_createFromWAL_frame (names : List GoString) (hmu : b.mu = none) :
    names.foldl createFromWAL b =
      { b with
        queues := (names.foldl createFromWAL b).queues
        numQueues := (names.foldl createFromWAL b).numQueues
        objects := (names.foldl createFromWAL b).objects } := by
  induction names generalizing b with
  | nil => rfl
  | cons name names ih =>
      rw [List.foldl_cons]
      have hcreated : b.createFromWAL name = b ∨ b.createFromWAL name = b.register name := by
        unfold createFromWAL
        split_ifs <;> simp
      rcases hcreated with hsame | hregister
      · rw [hsame]
        exact ih hmu
      · rw [hregister]
        refine (ih rfl).trans ?_
        simp only [Broker.register, hmu]

theorem foldl_restoreMessages_frame (order : GoMap.Order Message)
    (entries : List (GoString × GoMap Message)) (b : Broker) :
    entries.foldl (restoreMessages order) b =
      { b with objects := (entries.foldl (restoreMessages order) b).objects } := by
  have henqueue : ∀ (b : Broker) (queueName msgId : GoString) (msg : Message),
      b.enqueueFromWAL queueName msgId msg =
        { b with objects := (b.enqueueFromWAL queueName msgId msg).objects } := by
    intro b queueName msgId msg
    unfold Broker.enqueueFromWAL updateObject
    split
    · rfl
    · split <;> rfl
  have hmessages : ∀ (queueName : GoString) (entries : List (GoString × Message)) (b : Broker),
      ∃ objects, entries.foldl (fun b msg =>
        if msg.2.hasUnackedSubs then b.enqueueFromWAL queueName msg.1 msg.2 else b) b =
          { b with objects } := by
    intro queueName entries
    induction entries with
    | nil => exact fun b => ⟨b.objects, rfl⟩
    | cons entry entries ih =>
        intro b
        rw [List.foldl_cons]
        split_ifs
        · obtain ⟨objects, hobjects⟩ := ih (b.enqueueFromWAL queueName entry.1 entry.2)
          rw [henqueue] at hobjects
          exact ⟨objects, by rw [henqueue]; exact hobjects⟩
        · exact ih b
  have hdeliveries : ∀ b : Broker, ∃ objects,
      entries.foldl (restoreMessages order) b = { b with objects } := by
    induction entries with
    | nil => exact fun b => ⟨b.objects, rfl⟩
    | cons entry entries ih =>
        intro b
        rw [List.foldl_cons]
        obtain ⟨middle, hmiddle⟩ : ∃ objects, restoreMessages order b entry =
            { b with objects } := by
          unfold Broker.restoreMessages
          split_ifs
          · exact hmessages entry.1 (order.walk entry.2) b
          · exact ⟨b.objects, rfl⟩
        obtain ⟨objects, hobjects⟩ := ih (restoreMessages order b entry)
        exact ⟨objects, by rw [hobjects, hmiddle]⟩
  obtain ⟨objects, hobjects⟩ := hdeliveries b
  rw [hobjects]

end Broker

/-- The message as its records tell it, with no retry counted. -/
structure QueueMsg.ResumedFrom (msg : QueueMsg) (log : List Record) (queue : GoString) :
    Prop where
  enqueued : ∃ rec ∈ log, rec.queueName = queue ∧
    rec.enqueued = some ⟨msg.msgId, msg.payload, msg.subPolicySnapshot⟩
  acked : ∀ subName, subName ∈ msg.ackedSubs ↔
    ∃ rec ∈ log, rec.acked = some ⟨msg.msgId, subName⟩
  retryMap : msg.retryMap = ∅

namespace Broker

variable {b next : Broker}

/-- Nobody is in a call.  Every queue of the catalog has its object, with a worker about
to run and exactly the outstanding messages of the queue, each once. -/
structure Resumes (b : Broker) (cat : Catalog) (log : List Record) : Prop where
  log_eq : b.log = log
  cat_eq : b.cat = cat
  idle : b.mu = none ∧ b.calls = []
  queues : b.queues.keys = cat.keys
  registered : ∀ i < b.objects.length, ∃ name, b.queues.lookup name = some i
  objects : ∀ name object, b.queues.lookup name = some object → ∃ buf,
    b.objects[object]? = some (resumedQueue name buf) ∧
      (buf.map QueueMsg.msgId).Nodup ∧
      (∀ msgId, msgId ∈ buf.map QueueMsg.msgId ↔ Outstanding log name msgId) ∧
      ∀ msg ∈ buf, msg.ResumedFrom log name
  placed : ∀ name msgId, Outstanding log name msgId → name ∈ b.queues

section Resumed

variable {replayed : Replayed} {log : List Record}

theorem mem_resumed (order : GoMap.Order Message) {name : GoString} {msg : QueueMsg} :
    msg ∈ resumed (order.walk (replayed.deli.messages name)) ↔ ∃ msgId found,
      replayed.message name msgId = some found ∧ found.hasUnackedSubs = true ∧
        msg = newQueueMsg msgId found.content found.subList found.ackedSubs := by
  have hmem := (order.enumerates (replayed.deli.messages name)).2
  simp only [resumed, List.mem_map, List.mem_filter, Prod.exists]
  constructor
  · rintro ⟨msgId, found, ⟨hfound, hunacked⟩, rfl⟩
    exact ⟨msgId, found, (hmem msgId found).mp hfound, hunacked, rfl⟩
  · rintro ⟨msgId, found, hfound, hunacked, rfl⟩
    exact ⟨msgId, found, ⟨(hmem msgId found).mpr hfound, hunacked⟩, rfl⟩

theorem nodup_resumed (order : GoMap.Order Message) (messages : GoMap Message) :
    ((resumed (order.walk messages)).map QueueMsg.msgId).Nodup := by
  have hids : (resumed (order.walk messages)).map QueueMsg.msgId =
      ((order.walk messages).filter fun entry => entry.2.hasUnackedSubs).map Prod.fst := by
    rw [resumed, List.map_map]
    rfl
  rw [hids]
  exact (order.enumerates messages).1.sublist (List.filter_sublist.map _)

variable (hreflects : replayed.Reflects (({} : Ledger).followAll log))
  (hids : (enqueuedIds log).Nodup) (hadmits : ({} : Ledger).AdmitsAll log)

include hreflects hids hadmits

theorem resumedFrom_of_mem {order : GoMap.Order Message} {name : GoString} {msg : QueueMsg}
    (hmsg : msg ∈ resumed (order.walk (replayed.deli.messages name))) :
    msg.ResumedFrom log name := by
  obtain ⟨msgId, found, hfound, hunacked, rfl⟩ := (mem_resumed order).mp hmsg
  have hpending := (hreflects.pending name msgId found).mp ⟨hfound, hunacked⟩
  have hread := Ledger.readFrom hids hadmits hpending
  exact ⟨hread.enqueued, hread.acked, rfl⟩

theorem mem_resumed_iff_outstanding (order : GoMap.Order Message) (name msgId : GoString) :
    msgId ∈ (resumed (order.walk (replayed.deli.messages name))).map QueueMsg.msgId ↔
      Outstanding log name msgId := by
  rw [outstanding_iff_pending hids hadmits, List.mem_map]
  constructor
  · rintro ⟨msg, hmsg, rfl⟩
    obtain ⟨msgId, found, hfound, hunacked, rfl⟩ := (mem_resumed order).mp hmsg
    exact ⟨_, (hreflects.pending name msgId found).mp ⟨hfound, hunacked⟩, rfl⟩
  · rintro ⟨⟨queue, content, subList, acked⟩, hpending, rfl⟩
    obtain ⟨hfound, hunacked⟩ :=
      (hreflects.pending queue msgId ⟨content, subList, acked⟩).mpr hpending
    exact ⟨_, (mem_resumed order).mpr ⟨msgId, _, hfound, hunacked, rfl⟩, rfl⟩

end Resumed

theorem stocks_restoreWAL (log : List Record) (replayed : Replayed) (order : RestoreOrder) :
    (restoreWAL log replayed order).Stocks fun name =>
      resumed (order.messages.walk (replayed.deli.messages name)) := by
  have hempty : Stocks { cat := replayed.cat, log } fun _ => [] := ⟨by simp, by simp⟩
  have hcreated := hempty.foldl_createFromWAL ((order.queues.walk replayed.cat).map Prod.fst)
  have henum := order.deliveries.enumerates replayed.deli
  obtain ⟨after, hafter, hwalked, hrest⟩ := hcreated.foldl_deliveries order.messages henum.1
  have hsame : after = fun name =>
      resumed (order.messages.walk (replayed.deli.messages name)) := by
    funext name
    cases hlookup : replayed.deli.lookup name with
    | none =>
        have hnone : order.messages.walk ∅ = [] := by
          rw [List.eq_nil_iff_forall_not_mem]
          intro entry hmem
          have hfound := ((order.messages.enumerates ∅).lookup_of_mem hmem)
          simp at hfound
        rw [hrest name (henum.not_mem_keys hlookup), Delivery.messages, hlookup,
          Option.getD_none, hnone]
        rfl
    | some messages =>
        rw [hwalked (name, messages) ((henum.2 name messages).mpr hlookup), Delivery.messages,
          hlookup, Option.getD_some, List.nil_append]
  rw [← hsame]
  exact hafter

theorem registry_restoreWAL (log : List Record) {replayed : Replayed} (order : RestoreOrder)
    (hroom : replayed.cat.keys.card ≤ 128) :
    ∃ objects queues, restoreWAL log replayed order =
        { cat := replayed.cat, log, queues, numQueues := queues.len, objects } ∧
      queues.keys = replayed.cat.keys := by
  let names := (order.queues.walk replayed.cat).map Prod.fst
  let empty : Broker := { cat := replayed.cat, log }
  have hnodup : names.Nodup := (order.queues.enumerates replayed.cat).1
  have hnames : names.toFinset = replayed.cat.keys := by
    ext name
    rw [List.mem_toFinset]
    exact GoMap.mem_walk_names order.queues name
  have hlength : names.length = replayed.cat.keys.card := by
    rw [← List.toFinset_card_of_nodup hnodup, hnames]
  have hnone : ∀ name ∈ names, name ∉ empty.queues := fun name _ => Finmap.notMem_empty
  have hsize : empty.queues.len + names.length ≤ 128 := by
    rw [hlength]
    simpa [empty, GoMap.len] using hroom
  obtain ⟨hkeys, hcount⟩ := keys_foldl_createFromWAL hnodup hnone rfl hsize
  have hframe := foldl_createFromWAL_frame (b := empty) names rfl
  have hrestored : restoreWAL log replayed order = { names.foldl createFromWAL empty with
      objects := (restoreWAL log replayed order).objects } :=
    foldl_restoreMessages_frame order.messages (order.deliveries.walk replayed.deli) _
  generalize names.foldl createFromWAL empty = created at hkeys hcount hframe hrestored
  have hcat : created.cat = replayed.cat := congrArg Broker.cat hframe
  have hlog : created.log = log := congrArg Broker.log hframe
  have hmu : created.mu = none := congrArg Broker.mu hframe
  have hcalls : created.calls = [] := congrArg Broker.calls hframe
  refine ⟨(restoreWAL log replayed order).objects, created.queues, hrestored.trans ?_, ?_⟩
  · simp only [hcat, hlog, hmu, hcalls, hcount]
  · rw [hkeys, hnames]
    exact Finset.empty_union _

theorem resumes_restoreWAL (hsane : b.Sane) (hinStep : b.InStep)
    (hadmits : ({} : Ledger).AdmitsAll b.log) {replayed : Replayed}
    (hreflects : replayed.Reflects b.ledger) (order : RestoreOrder) :
    (restoreWAL b.log replayed order).Resumes b.cat b.log ∧
      (restoreWAL b.log replayed order).InStep := by
  have hcat : replayed.cat = b.cat := hreflects.catalog.trans hsane.book.catalog.symm
  have hroom := hinStep.card_cat_le
  rw [← hcat] at hroom
  obtain ⟨objects, queues, hrestored, hkeys⟩ := registry_restoreWAL b.log order hroom
  have hstocks := stocks_restoreWAL b.log replayed order
  rw [hrestored] at hstocks ⊢
  have hids := hsane.book.ids
  refine ⟨⟨rfl, hcat, ⟨rfl, rfl⟩, hcat ▸ hkeys, hstocks.registered, ?_, ?_⟩,
    ⟨hkeys.symm, rfl, ?_⟩⟩
  · intro name object hlookup
    exact ⟨_, hstocks.object name object hlookup, nodup_resumed order.messages _,
      mem_resumed_iff_outstanding hreflects hids hadmits order.messages name,
      fun msg hmsg => resumedFrom_of_mem hreflects hids hadmits hmsg⟩
  · intro name msgId houtstanding
    obtain ⟨pending, hpending, rfl⟩ := (outstanding_iff_pending hids hadmits).mp houtstanding
    have hqueued := hsane.book.sound.queued msgId pending hpending
    rw [← hsane.book.catalog, ← hcat, ← Finmap.mem_keys, ← hkeys] at hqueued
    exact Finmap.mem_keys.mp hqueued
  · change queues.keys.card ≤ 128
    rw [hkeys]
    exact hroom

theorem inStep_run {events : List ServiceEvent} {b : Broker}
    (hmeets : Meets serve Orderly {} events) (hexec : exec serve {} events = some b) :
    b.Sane ∧ ({} : Ledger).AdmitsAll b.log ∧ b.InStep := by
  have hstart : ({} : Broker).Sane ∧ ({} : Ledger).AdmitsAll ({} : Broker).log ∧
      ({} : Broker).InStep := ⟨sane_initial, trivial, inStep_initial⟩
  refine exec_invariant (P := fun b => b.Sane ∧ ({} : Ledger).AdmitsAll b.log ∧ b.InStep) ?_
    hstart hmeets hexec
  rintro b event next ⟨hsane, hadmits, hinStep⟩ horderly hstep
  cases event with
  | live event =>
      exact ⟨hsane.step horderly.1 hstep,
        hsane.admits_step hadmits horderly.1 horderly.2.1 hstep, hinStep.step hsane hstep⟩
  | restart startup =>
      obtain ⟨replayed, hreflects, rfl⟩ := serve_restart horderly hadmits hstep
      obtain ⟨hrestored, hlog⟩ := hsane.restoreWAL hreflects startup.order
      exact ⟨hrestored, by rwa [hlog],
        (resumes_restoreWAL hsane hinStep hadmits hreflects startup.order).2⟩

theorem exists_resumes {events : List ServiceEvent} {b : Broker}
    (hmeets : Meets serve Orderly {} events) (hexec : exec serve {} events = some b)
    {startup : Startup} (hfinds : startup.Finds b.log) :
    ∃ next, next.Resumes b.cat b.log ∧ ∃ enough, ∀ fuel, enough ≤ fuel →
      b.serve (.restart { startup with fuel }) = some next := by
  obtain ⟨hsane, hadmits, hinStep⟩ := inStep_run hmeets hexec
  obtain ⟨replayed, hreflects, hserves⟩ := exists_serve_restart hfinds hadmits
  exact ⟨_, (resumes_restoreWAL hsane hinStep hadmits hreflects startup.order).1, hserves⟩

/-- A broker that was stopped anywhere comes up with exactly what its log leaves to be
done, on whatever files its coordinators can have left. -/
theorem restart_resumes_what_is_outstanding {events : List ServiceEvent} {b : Broker}
    (hmeets : Meets serve Orderly {} events) (hexec : exec serve {} events = some b) :
    (b.log.length + 2 < 2 ^ 64 → ∃ startup : Startup, startup.Finds b.log) ∧
      ∀ startup : Startup, startup.Finds b.log →
        ∃ next, next.Resumes b.cat b.log ∧ ∃ enough, ∀ fuel, enough ≤ fuel →
          b.serve (.restart { startup with fuel }) = some next :=
  ⟨exists_finds hmeets hexec, fun _ hfinds => exists_resumes hmeets hexec hfinds⟩

/-- One subscriber has acked and the other's answer is not yet looked at, while another
queue is half created. -/
def stoppedInSettling : List ServiceEvent :=
  [.live (.createQueue (lit "q")), .live .register,
    .live (.addSubscriber ⟨lit "a", lit "u", 3⟩ (lit "q")),
    .live (.addSubscriber ⟨lit "b", lit "v", 3⟩ (lit "q")),
    .live (.find (lit "q") (lit "hi")), .live (.accept 0 (lit "1")), .live (.add 0 0),
    .live (.work 0 .pop),
    .live (.work 0 (.deliver .sorted fun _ => true)),
    .live (.work 0 .settle), .live (.createQueue (lit "r"))]

def stoppedCalls : List NodeEvent :=
  firstStart ++
    [.append (.caller (.createQueue (lit "q"))),
      .append (.caller (.updateSubPolicy (lit "q") ⟨lit "a", lit "u", 3⟩)),
      .append (.caller (.updateSubPolicy (lit "q") ⟨lit "b", lit "v", 3⟩)),
      .append (.caller (.enqueue (lit "q") (lit "q-1") (lit "hi"))),
      .append (.caller (.ack (lit "q") (lit "q-1") (lit "a"))),
      .append (.caller (.createQueue (lit "r"))), .crash]

set_option maxRecDepth 20000 in
theorem resumed_in_settling :
    ∃ b next, exec serve {} stoppedInSettling = some b ∧
      Outstanding b.log (lit "q") (lit "q-1") ∧ next.Resumes b.cat b.log ∧
      next.queues.len = 2 ∧ ∃ enough, ∀ fuel, enough ≤ fuel →
        b.serve (.restart { startOn stoppedCalls with fuel }) = some next := by
  have hbroker : (exec serve {} stoppedInSettling).map (fun b =>
      (b.cat.len, decide (Outstanding b.log (lit "q") (lit "q-1")),
        decide ((startOn stoppedCalls).Finds b.log))) = some (2, true, true) := by
    decide +kernel
  have hmeets : Meets serve Orderly {} stoppedInSettling := by
    decide +kernel
  obtain ⟨b, hb, hresult⟩ := Option.map_eq_some_iff.mp hbroker
  simp only [Prod.mk.injEq, decide_eq_true_eq] at hresult
  obtain ⟨hqueues, houtstanding, hfinds⟩ := hresult
  obtain ⟨next, hresumes, hserves⟩ :=
    (restart_resumes_what_is_outstanding hmeets hb).2 _ hfinds
  refine ⟨b, next, hb, houtstanding, hresumes, ?_, hserves⟩
  rw [GoMap.len, hresumes.queues]
  exact hqueues

end Broker

end SimonMQ.Durable
