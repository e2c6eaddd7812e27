import SimonMQ.Dist.Causal

namespace SimonMQ.Dist

open SimonMQ.Go
open SimonMQ.Attempts (Attempt)

/-! Why a subscriber stops being owed a message, whichever nodes have led meanwhile. -/

namespace Fleet

variable {Node : Type}

def seen (fleet : Fleet Node) (node : Node) : List Command :=
  fleet.log.take (fleet.applied node)

structure Grounded (fleet : Fleet Node) (history : List (Attempt Share)) : Prop where
  lawful : Lawful history fleet.commands
  underPolicy : ∀ attempt ∈ history, UnderPolicy fleet.log attempt
  applied_le : ∀ node, fleet.applied node ≤ fleet.log.length
  store : ∀ node, (fleet.nodes node).store = replay (fleet.seen node)
  causal : ∀ node, (fleet.nodes node).Causal (fleet.seen node) history

theorem causal_initial (log : List Command) (history : List (Attempt Share))
    (store : InMemoryStorage) :
    ({ Delivery.initial with store } : Delivery).Causal log history where
  workers := fun id worker hworker => by cases hworker
  feeders := fun id feeder hfeeder => by cases hfeeder
  queues := fun queueName id hqueue => by simp [Delivery.initial] at hqueue

theorem grounded_initial : (initial : Fleet Node).Grounded [] where
  lawful := ⟨List.nodup_nil, fun _ hmem => absurd hmem List.not_mem_nil⟩
  underPolicy := fun _ hmem => absurd hmem List.not_mem_nil
  applied_le := fun _ => Nat.le_refl 0
  store := fun _ => rfl
  causal := fun _ => causal_initial [] [] .empty

namespace Grounded

variable {fleet next : Fleet Node} {history : List (Attempt Share)}

theorem lawful_log (hgrounded : fleet.Grounded history) : Lawful history fleet.log :=
  hgrounded.lawful.sublist (List.sublist_append_left _ _)

theorem lawful_take (hgrounded : fleet.Grounded history) (position : Nat) :
    Lawful history (fleet.log.take position) :=
  hgrounded.lawful_log.sublist (List.take_sublist _ _)

theorem stocked (hgrounded : fleet.Grounded history) (node : Node) :
    Stocked (fleet.seen node) (fleet.nodes node).store := by
  rw [hgrounded.store node]
  exact stocked_replay (hgrounded.lawful_take _)

theorem submit (hgrounded : fleet.Grounded history) {cmd : Command}
    (hfresh : cmd.type = .enqueue → cmd.msgID ∉ publishedIDs fleet.commands)
    (hcmd : cmd.Grounded history) :
    ({ fleet with inFlight := fleet.inFlight ++ [cmd] } : Fleet Node).Grounded history :=
  { hgrounded with
    lawful := by
      have hlawful := hgrounded.lawful.concat hfresh hcmd
      rwa [commands, List.append_assoc] at hlawful }

theorem commit (hgrounded : fleet.Grounded history) {position : Nat} {cmd : Command}
    (hcmd : fleet.inFlight[position]? = some cmd) :
    ({ fleet with
      log := fleet.log ++ [cmd]
      inFlight := fleet.inFlight.eraseIdx position } : Fleet Node).Grounded history where
  lawful := by
    obtain ⟨hposition, rfl⟩ := List.getElem?_eq_some_iff.mp hcmd
    refine hgrounded.lawful.perm ?_
    rw [commands, commands, List.append_assoc]
    exact (List.getElem_cons_eraseIdx_perm hposition).append_left _
  underPolicy := fun attempt hmem =>
    (hgrounded.underPolicy attempt hmem).mono (List.subset_append_left _ _)
  applied_le := by
    intro node
    rw [List.length_append]
    exact Nat.le_add_right_of_le (hgrounded.applied_le node)
  store := by
    intro node
    rw [seen, List.take_append_of_le_length (hgrounded.applied_le node)]
    exact hgrounded.store node
  causal := by
    intro node
    rw [seen, List.take_append_of_le_length (hgrounded.applied_le node)]
    exact hgrounded.causal node

theorem causal_take (hgrounded : fleet.Grounded history) {node : Node} {position : Nat}
    (hposition : fleet.applied node ≤ position) :
    (fleet.nodes node).Causal (fleet.log.take position) history :=
  (hgrounded.causal node).longer (List.take_subset_take_left _ hposition)

variable [DecidableEq Node]

theorem setNode (hgrounded : fleet.Grounded history) {later : List (Attempt Share)}
    (hpolicies : ∀ attempt ∈ later, UnderPolicy fleet.log attempt) {node : Node}
    {state : Delivery} {applied : Nat} (happlied : applied ≤ fleet.log.length)
    (hstore : state.store = replay (fleet.log.take applied))
    (hcausal : state.Causal (fleet.log.take applied) (history ++ later)) :
    (fleet.setNode node state applied).Grounded (history ++ later) where
  lawful := hgrounded.lawful.append later
  underPolicy := by
    intro attempt hmem
    rcases List.mem_append.mp hmem with hmem | hmem
    · exact hgrounded.underPolicy attempt hmem
    · exact hpolicies attempt hmem
  applied_le := by
    intro other
    simp only [Fleet.setNode, Function.update_apply]
    split_ifs
    · exact happlied
    · exact hgrounded.applied_le other
  store := by
    intro other
    simp only [seen, Fleet.setNode, Function.update_apply]
    split_ifs
    · exact hstore
    · exact hgrounded.store other
  causal := by
    intro other
    simp only [seen, Fleet.setNode, Function.update_apply]
    split_ifs
    · exact hcausal
    · exact (hgrounded.causal other).mono (List.Subset.refl _) later

theorem act (hgrounded : fleet.Grounded history) {node : Node} {event : DeliveryEvent}
    {state : Delivery} (hnode : (fleet.nodes node).step event = some state) {position : Nat}
    (hposition : fleet.applied node ≤ position ∧ position ≤ fleet.log.length)
    (hproposal : ∀ cmd, (fleet.nodes node).proposal event = some cmd →
      cmd ∈ fleet.log.take position)
    (hstore : state.store = replay (fleet.log.take position)) :
    (fleet.setNode node state position).Grounded
      (history ++ (fleet.nodes node).attempts event) := by
  have hcausal := hgrounded.causal_take hposition.1
  have hlawful := hgrounded.lawful_take position
  have hstocked : Stocked (fleet.log.take position) (fleet.nodes node).store :=
    (hgrounded.stocked node).mono (List.take_sublist_take_left hposition.1)
  refine hgrounded.setNode ?_ hposition.2 hstore
    (hcausal.step hlawful.keyed hstocked hproposal hnode)
  intro attempt hmem
  exact (hcausal.underPolicy hlawful.keyed hmem).mono (List.take_subset _ _)

theorem step (hgrounded : fleet.Grounded history) {event : FleetEvent Node}
    (hstep : fleet.step event = some next) :
    next.Grounded (history ++ fleet.attempts event) := by
  have hquiet : fleet.attempts event = [] → next.Grounded (history ++ []) →
      next.Grounded (history ++ fleet.attempts event) := by
    intro hnone hnext
    rwa [hnone]
  have hnobody : ∀ attempt ∈ ([] : List (Attempt Share)), UnderPolicy fleet.log attempt :=
    fun attempt hmem => absurd hmem List.not_mem_nil
  cases stepped_of_step hstep with
  | @acted node event state hevent hnode hnone =>
      have hstore := Delivery.store_of_step hevent hnode
      rw [hnone] at hstore
      refine hgrounded.act hnode ⟨Nat.le_refl _, hgrounded.applied_le node⟩ ?_
        (hstore.trans (hgrounded.store node))
      intro cmd hcmd
      rw [hnone] at hcmd
      contradiction
  | @answered node event state cmd hevent hnode hproposal hentry =>
      obtain ⟨hposition, _⟩ := List.getElem?_eq_some_iff.mp hentry
      have hstore := Delivery.store_of_step hevent hnode
      rw [hproposal] at hstore
      refine hgrounded.act hnode ⟨Nat.le_succ _, hposition⟩ ?_ ?_
      · intro other hother
        rw [hproposal] at hother
        cases hother
        rw [List.take_add_one, hentry]
        exact List.mem_append_right _ List.mem_cons_self
      · rw [replay_take_succ hentry, ← seen, ← hgrounded.store node]
        exact hstore
  | @submitted node event cmd hproposal hfresh =>
      refine hquiet rfl ?_
      rw [List.append_nil]
      exact hgrounded.submit hfresh ((hgrounded.causal node).grounded_proposal hproposal)
  | @requested cmd hcmd =>
      refine hquiet rfl ?_
      rw [List.append_nil]
      refine hgrounded.submit ?_ (Command.grounded_of_isAdministrative hcmd)
      intro htype
      simp [Command.isAdministrative, htype] at hcmd
  | committed hcmd =>
      refine hquiet rfl ?_
      rw [List.append_nil]
      exact hgrounded.commit hcmd
  | @applied node cmd hentry =>
      obtain ⟨hposition, _⟩ := List.getElem?_eq_some_iff.mp hentry
      have hcausal := (hgrounded.causal_take (Nat.le_succ (fleet.applied node)))
      refine hquiet rfl (hgrounded.setNode hnobody hposition ?_ ?_)
      · rw [replay_take_succ hentry, ← seen, ← hgrounded.store node]
      · rw [List.append_nil]
        exact hcausal.of_same rfl rfl rfl (.inl rfl)
  | @installed node position hahead hposition =>
      refine hquiet rfl (hgrounded.setNode hnobody hposition rfl ?_)
      rw [List.append_nil]
      exact (hgrounded.causal_take hahead).of_same rfl rfl rfl (.inl rfl)
  | restarted hposition =>
      exact hquiet rfl (hgrounded.setNode hnobody hposition rfl (causal_initial _ _ _))

end Grounded

variable [DecidableEq Node]

def answers (events : List (FleetEvent Node)) : List (Attempt Share) :=
  Transition.trace step attempts initial events

theorem grounded_of_exec {events : List (FleetEvent Node)} {fleet : Fleet Node}
    (hexec : Transition.exec step initial events = some fleet) :
    fleet.Grounded (answers events) :=
  Transition.exec_traces (fun hgrounded hstep => hgrounded.step hstep) grounded_initial hexec

end Fleet

theorem spent_of_settled {history : List (Attempt Share)} {log : List Command}
    (hlawful : Lawful history log) (hpolicies : ∀ attempt ∈ history, UnderPolicy log attempt)
    {queueName msgID name : GoString} {subList : GoMap SubPolicy} {policy : SubPolicy}
    (hpublished : Published log queueName msgID subList)
    (hpolicy : subList.lookup name = some policy)
    (hsettled : Attempts.Settled history ⟨queueName, msgID, name⟩) :
    true ∈ Attempts.outcomes ⟨queueName, msgID, name⟩ history ∨
      budget policy ≤ Attempts.failures ⟨queueName, msgID, name⟩ history := by
  rcases hsettled with hok | ⟨attempt, hmem, hkey, hle⟩
  · exact .inl hok
  obtain ⟨other, found, hother, hfound, hbudget⟩ := hpolicies attempt hmem
  rw [hkey] at hother hfound
  obtain ⟨_, rfl⟩ := hlawful.published_unique hpublished hother
  rw [hpolicy] at hfound
  cases hfound
  have hany : attempt.ok ∈ Attempts.outcomes ⟨queueName, msgID, name⟩ history :=
    List.mem_map_of_mem (List.mem_filter.mpr ⟨hmem, by simpa using hkey⟩)
  cases hok : attempt.ok with
  | true => exact .inl (hok ▸ hany)
  | false =>
      right
      rw [hok] at hany
      have hpositive : 0 < Attempts.failures ⟨queueName, msgID, name⟩ history :=
        List.count_pos_iff.mpr hany
      rw [hbudget] at hle
      unfold budget
      omega

theorem awaits_or_acked {before middle : List Command} {cmd : Command} {name : GoString}
    (henqueue : cmd.type = .enqueue) (haccepts : (replay before).accepts cmd = true)
    (hname : name ∈ cmd.subList.keys)
    (hkept : ∀ later ∈ middle, ¬ later.deletes cmd.queueName) :
    (replay (before ++ cmd :: middle)).Awaits cmd.queueName cmd.msgID name ∨
      ∃ later ∈ middle, later.acks cmd.queueName cmd.msgID ∧ name ∈ later.subNames := by
  by_cases hacked : ∃ later ∈ middle,
      later.acks cmd.queueName cmd.msgID ∧ name ∈ later.subNames
  · exact .inr hacked
  left
  have hawaits := InMemoryStorage.awaits_of_accepts henqueue haccepts hname 0
  have hsplit : replay (before ++ cmd :: middle) =
      FSM.applyLog (FSM.applyCommand 0 (replay before) cmd).2
        (middle.map fun cmd => { index := 0, cmd }) := by
    simp [replay, FSM.applyLog]
  rw [hsplit]
  refine hawaits.applyLog ?_ ?_
  · intro entry hentry
    obtain ⟨later, hmem, rfl⟩ := List.mem_map.mp hentry
    exact hkept later hmem
  · intro entry hentry hacks hin
    obtain ⟨later, hmem, rfl⟩ := List.mem_map.mp hentry
    exact hacked ⟨later, hmem, hacks, hin⟩

theorem Lawful.accepts {history : List (Attempt Share)} {before after : List Command}
    {cmd : Command} (hlawful : Lawful history (before ++ cmd :: after))
    (henqueue : cmd.type = .enqueue) (hqueue : cmd.queueName ∈ (replay before).queues) :
    (replay before).accepts cmd = true := by
  obtain ⟨queue, hlookup⟩ := Finmap.mem_iff.mp hqueue
  have hstocked := stocked_replay (hlawful.sublist (List.sublist_append_left _ _))
  have hnew : queue.messages.lookup cmd.msgID = none := by
    by_contra hheld
    obtain ⟨msg, hmsg⟩ := Option.ne_none_iff_exists'.mp hheld
    have hused := hstocked.outstanding.used cmd.queueName cmd.msgID msg ⟨queue, hlookup, hmsg⟩
    have hids := hlawful.ids
    simp only [publishedIDs, List.filter_append, List.filter_cons, henqueue, decide_true,
      if_true, List.map_append, List.map_cons] at hids
    exact (List.nodup_append.mp hids).2.2 _ (List.mem_toFinset.mp hused) _
      List.mem_cons_self rfl
  simp [InMemoryStorage.accepts, hlookup, hnew]

/-- No published message is lost.  As long as its queue is not deleted, every node that
has applied the publish holds the message for each of its subscribers until one delivery
has succeeded, or as many have failed as the subscriber's policy allows.  Failed leaders,
restarts, snapshots, doubtful proposals and two leaders at a time do not change that. -/
theorem owed_until_settled {Node : Type} [DecidableEq Node]
    {events : List (FleetEvent Node)} {fleet : Fleet Node}
    (hexec : Transition.exec Fleet.step Fleet.initial events = some fleet)
    {before after : List Command} {cmd : Command}
    (hlog : fleet.log = before ++ cmd :: after) (henqueue : cmd.type = .enqueue)
    (hqueue : cmd.queueName ∈ (replay before).queues)
    (hkept : ∀ later ∈ after, ¬ later.deletes cmd.queueName)
    {name : GoString} {policy : SubPolicy} (hpolicy : cmd.subList.lookup name = some policy)
    {node : Node} (hnode : before.length < fleet.applied node) :
    let share : Share := ⟨cmd.queueName, cmd.msgID, name⟩
    (fleet.nodes node).store.Awaits cmd.queueName cmd.msgID name ∨
      true ∈ Attempts.outcomes share (Fleet.answers events) ∨
      budget policy ≤ Attempts.failures share (Fleet.answers events) := by
  intro share
  have hgrounded := Fleet.grounded_of_exec hexec
  have hlawful := hgrounded.lawful_log
  obtain ⟨extra, hextra⟩ := Nat.exists_eq_add_of_lt hnode
  have hseen : fleet.seen node = before ++ cmd :: after.take extra := by
    rw [Fleet.seen, hlog, hextra, Nat.add_assoc, List.take_length_add_append, List.take_succ_cons]
  rw [hlog] at hlawful
  have hname : name ∈ cmd.subList.keys :=
    Finmap.mem_keys.mpr (Finmap.mem_iff.mpr ⟨policy, hpolicy⟩)
  have hkeptSoFar : ∀ later ∈ after.take extra, ¬ later.deletes cmd.queueName :=
    fun later hmem => hkept later (List.mem_of_mem_take hmem)
  rw [hgrounded.store node, hseen]
  refine (awaits_or_acked henqueue (hlawful.accepts henqueue hqueue) hname
    hkeptSoFar).imp_right ?_
  rintro ⟨later, hmem, ⟨htype, hsame, hid⟩, hin⟩
  have hlater : later ∈ before ++ cmd :: after :=
    List.mem_append_right _ (List.mem_cons_of_mem _ (List.mem_of_mem_take hmem))
  have hsettled := (hlawful.grounded later hlater).settled htype name hin
  rw [hsame, hid] at hsettled
  refine spent_of_settled hlawful (hlog ▸ hgrounded.underPolicy) ?_ hpolicy hsettled
  exact ⟨cmd, List.mem_append_right _ List.mem_cons_self, henqueue, rfl, rfl, rfl⟩

/-- The leader gives up on the only subscriber and fails before it hears that the ack was
committed.  The other node applies it. -/
def doubtfulAck : List (FleetEvent Bool) :=
  let publish := DeliveryEvent.feeder 1 (.commit (lit "orders-1") (lit "order 1"))
  let ack := DeliveryEvent.worker 0 (.ack true)
  [.request (.newCreateQueue (lit "orders")),
    .request (.newPutSubPolicy (lit "orders") (billingPolicy 1)), .commit 0, .commit 0,
    .apply false, .apply false, .act false .gain, .act false .receive,
    .act false .checkLeader, .act false .tearDown, .act false (.barrier true),
    .act false (.openTenure 0), .act false (.fetch 1 (lit "orders")), .submit false publish,
    .commit 0, .act false publish, .act false (.feeder 1 .schedule),
    .act false (.worker 0 .checkRun), .act false (.worker 0 .pop),
    .act false (.worker 0 (.result (lit "billing") false)), .act false (.worker 0 .collect),
    .act false (.worker 0 .checkProcess), .submit false ack, .restart false 0, .commit 0,
    .apply true, .apply true, .apply true, .apply true]

theorem owed_until_settled_in_doubtfulAck :
    let share : Share := ⟨lit "orders", lit "orders-1", lit "billing"⟩
    ∃ fleet, Transition.exec Fleet.step Fleet.initial doubtfulAck = some fleet ∧
      ((fleet.nodes true).store.Awaits (lit "orders") (lit "orders-1") (lit "billing") ∨
        true ∈ Attempts.outcomes share (Fleet.answers doubtfulAck) ∨
        budget (billingPolicy 1) ≤ Attempts.failures share (Fleet.answers doubtfulAck)) := by
  intro share
  let before : List Command :=
    [.newCreateQueue (lit "orders"), .newPutSubPolicy (lit "orders") (billingPolicy 1)]
  let cmd : Command := .newEnqueue (lit "orders") (lit "orders-1") (lit "order 1")
    (GoMap.ofList [(lit "billing", billingPolicy 1)])
  let after : List Command := [.newAck (lit "orders") (lit "orders-1") [lit "billing"]]
  obtain ⟨fleet, hexec⟩ : ∃ fleet,
      Transition.exec Fleet.step Fleet.initial doubtfulAck = some fleet :=
    Option.isSome_iff_exists.mp (by decide +kernel)
  have hview : (Transition.exec Fleet.step Fleet.initial doubtfulAck).map
      (fun fleet => (fleet.log, fleet.applied true)) = some (before ++ cmd :: after, 4) := by
    decide +kernel
  rw [hexec, Option.map_some, Option.some.injEq, Prod.mk.injEq] at hview
  obtain ⟨hlog, happlied⟩ := hview
  refine ⟨fleet, hexec, owed_until_settled hexec hlog rfl ?_ ?_ ?_ ?_⟩
  · decide +kernel
  · decide +kernel
  · decide +kernel
  · rw [happlied]
    decide

end SimonMQ.Dist
