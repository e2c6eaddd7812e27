import SimonMQ.Durable.Registry

namespace SimonMQ.Durable

open SimonMQ.Go

/-! The registry of the broker and the catalog of its coordinator. -/

theorem Ledger.mem_catalog_apply_iff {ledger : Ledger} {effect : Effect} {name : GoString}
    (hcreate : ∀ queue, effect ≠ .create queue)
    (hdelete : ∀ queue, effect ≠ .delete queue) :
    name ∈ (ledger.apply effect).catalog ↔ name ∈ ledger.catalog := by
  cases effect with
  | create queue => exact absurd rfl (hcreate queue)
  | delete queue => exact absurd rfl (hdelete queue)
  | subscribe queue policy => exact mem_editPolicies
  | unsubscribe queue subName => exact mem_editPolicies
  | accept queue msgId content subList =>
      rw [apply]
      split_ifs <;> rfl
  | settle queue msgId subName => rw [apply, catalog_settle]
  | nothing => rfl

theorem Bookkeeping.keys_after {cat : Catalog} {log : List Record} {request : Request}
    {rec : Record} {effect : Effect} (hbook : Bookkeeping cat log)
    (hrecord : cat.record request = .ok rec) (heffect : rec.effect = some effect)
    (hcreate : ∀ queue, effect ≠ .create queue)
    (hdelete : ∀ queue, effect ≠ .delete queue) :
    (cat.after rec).keys = cat.keys := by
  ext name
  rw [Finmap.mem_keys, Finmap.mem_keys, hbook.after_eq hrecord heffect, hbook.catalog]
  exact Ledger.mem_catalog_apply_iff hcreate hdelete

namespace Broker

variable {b next : Broker}

/-- The names in the catalog, as the registry and the holder of `mu` tell them. -/
def listed (b : Broker) : Finset GoString :=
  match b.mu with
  | none => b.queues.keys
  | some (.creating name) => insert name b.queues.keys
  | some (.deleting name _) => b.queues.keys.erase name

theorem listed_of_none (hmu : b.mu = none) : b.listed = b.queues.keys := by
  rw [listed, hmu]

theorem listed_of_creating {name : GoString} (hmu : b.mu = some (.creating name)) :
    b.listed = insert name b.queues.keys := by
  rw [listed, hmu]

theorem listed_of_deleting {name : GoString} {object : Nat}
    (hmu : b.mu = some (.deleting name object)) : b.listed = b.queues.keys.erase name := by
  rw [listed, hmu]

/-- The catalog has the registered queues, up to the call in progress, and `CreateQueue`
has kept to its limit. -/
structure InStep (b : Broker) : Prop where
  names : b.cat.keys = b.listed
  count : b.numQueues = b.queues.len
  limit : b.listed.card ≤ 128

theorem inStep_initial : InStep {} where
  names := rfl
  count := rfl
  limit := by simp [listed]

inductive Registers (b : Broker) : Broker → Prop
  | createQueue (hmu : b.mu = none) (name : GoString) : b.Registers (b.createQueue name)
  | register {name : GoString} (hmu : b.mu = some (.creating name)) :
      b.Registers (b.register name)
  | deleteQueue (hmu : b.mu = none) (name : GoString) : b.Registers (b.deleteQueue name)
  | unregister {name : GoString} {object : Nat} (hmu : b.mu = some (.deleting name object)) :
      b.Registers (b.unregister name object)
  | quiet {next : Broker} (hqueues : next.queues = b.queues)
      (hcount : next.numQueues = b.numQueues) (hmu : next.mu = b.mu)
      (hcat : next.cat.keys = b.cat.keys) : b.Registers next

theorem Sane.registers_request (hsane : b.Sane) {request : Request}
    (hkeeps : ∀ effect, b.cat.Writes request effect →
      ∀ queue, effect ≠ .create queue ∧ effect ≠ .delete queue) :
    b.Registers (b.request request) := by
  rcases b.request_cases request with hsame | ⟨rec, effect, hrecord, heffect, hwrites, hnext⟩
  · rw [hsame]
    exact .quiet rfl rfl rfl rfl
  · rw [hnext]
    exact .quiet rfl rfl rfl (hsane.book.keys_after hrecord heffect
      (fun queue => (hkeeps effect hwrites queue).1)
      fun queue => (hkeeps effect hwrites queue).2)

theorem Sane.registers_accept (hsane : b.Sane) {call : EnqueueCall} (hcall : call ∈ b.calls)
    (uuid : GoString) (calls : List EnqueueCall) :
    b.Registers { b.accept call uuid with calls } := by
  rcases hsane.accept_cases hcall uuid with
    ⟨-, hsame⟩ | ⟨subList, rec, q, -, -, hrecord, heffect, -, -, hnext⟩
  · rw [hsame]
    exact .quiet rfl rfl rfl rfl
  · rw [hnext]
    exact .quiet rfl rfl rfl (hsane.book.keys_after hrecord heffect (by simp) (by simp))

theorem Sane.registers_work (hsane : b.Sane) {object : Nat} {move : Move}
    (hstep : b.step (.work object move) = some next) : b.Registers next := by
  obtain ⟨q, moved, -, ⟨-, rfl⟩ | ⟨hand, subName, rec, -, -, -, -, -, hrecord, heffect,
    rfl⟩⟩ := hsane.work_cases hstep
  · exact .quiet rfl rfl rfl rfl
  · exact .quiet rfl rfl rfl (hsane.book.keys_after hrecord heffect (by simp) (by simp))

theorem registers_of_step {event : BrokerEvent} (hsane : b.Sane)
    (hstep : b.step event = some next) : b.Registers next := by
  cases steps_of_step hstep with
  | createQueue hmu name => exact .createQueue hmu name
  | register hmu => exact .register hmu
  | deleteQueue hmu name => exact .deleteQueue hmu name
  | unregister hmu => exact .unregister hmu
  | editPolicies hrequest =>
      exact hsane.registers_request fun effect hwrites =>
        (edits_of_policyRequest hrequest hwrites).2
  | find queueName payload =>
      unfold Broker.find
      split <;> exact .quiet rfl rfl rfl rfl
  | accept hcall uuid => exact hsane.registers_accept (List.mem_of_getElem? hcall) uuid _
  | add hq hmsg => exact .quiet rfl rfl rfl rfl
  | work hstep => exact hsane.registers_work hstep

namespace InStep

theorem createQueue (hinStep : b.InStep) (hmu : b.mu = none) (name : GoString) :
    (b.createQueue name).InStep := by
  unfold Broker.createQueue
  split_ifs with hregistered hfull
  · exact hinStep
  · exact hinStep
  · obtain ⟨hnames, hcount, -⟩ := hinStep
    rw [listed_of_none hmu] at hnames
    refine ⟨?_, hcount, ?_⟩
    · change Finmap.keys (b.cat.insert name ∅) = insert name b.queues.keys
      rw [GoMap.keys_insert, hnames]
    · have hinsert := Finset.card_insert_le name b.queues.keys
      rw [hcount, GoMap.len] at hfull
      change (insert name b.queues.keys).card ≤ 128
      omega

theorem register (hinStep : b.InStep) {name : GoString} (hmu : b.mu = some (.creating name))
    (hnew : b.queues.lookup name = none) : (b.register name).InStep := by
  obtain ⟨hnames, hcount, hlimit⟩ := hinStep
  rw [listed_of_creating hmu] at hnames hlimit
  have hkeys : (b.register name).listed = insert name b.queues.keys :=
    GoMap.keys_insert b.queues name _
  have hfresh : name ∉ b.queues.keys := fun hmem =>
    Finmap.lookup_eq_none.mp hnew (Finmap.mem_keys.mp hmem)
  refine ⟨hnames.trans hkeys.symm, ?_, hkeys ▸ hlimit⟩
  have hlen : (b.register name).queues.len = b.queues.len + 1 := by
    rw [GoMap.len, Broker.register, GoMap.keys_insert, Finset.card_insert_of_notMem hfresh,
      GoMap.len]
  rw [hlen, Broker.register, hcount]
  rfl

theorem deleteQueue (hinStep : b.InStep) (hmu : b.mu = none) (name : GoString) :
    (b.deleteQueue name).InStep := by
  unfold Broker.deleteQueue
  cases hlookup : b.queues.lookup name with
  | none => exact hinStep
  | some object =>
      cases hrecord : b.cat.record (.deleteQueue name) with
      | error err => exact hinStep
      | ok rec =>
          obtain ⟨-, rfl⟩ := Catalog.require_eq_ok hrecord
          obtain ⟨hnames, hcount, hlimit⟩ := hinStep
          rw [listed_of_none hmu] at hnames hlimit
          refine ⟨?_, hcount, ?_⟩
          · change Finmap.keys (b.cat.erase name) = b.queues.keys.erase name
            rw [Finmap.keys_erase, hnames]
          · exact (Finset.card_erase_le).trans hlimit

theorem unregister (hinStep : b.InStep) {name : GoString} {object : Nat}
    (hmu : b.mu = some (.deleting name object)) (hlookup : b.queues.lookup name = some object)
    {q : Queue} (hq : b.objects[object]? = some q) : (b.unregister name object).InStep := by
  obtain ⟨hnames, hcount, hlimit⟩ := hinStep
  rw [listed_of_deleting hmu] at hnames hlimit
  rw [unregister_eq hq]
  have hkeys : Finmap.keys (b.queues.erase name) = b.queues.keys.erase name :=
    Finmap.keys_erase name b.queues
  have hmem : name ∈ b.queues.keys :=
    Finmap.mem_keys.mpr (Finmap.mem_iff.mpr ⟨object, hlookup⟩)
  refine ⟨hnames.trans hkeys.symm, ?_, ?_⟩
  · have hpos : 0 < b.queues.keys.card := Finset.card_pos.mpr ⟨name, hmem⟩
    change b.numQueues - 1 = ((Finmap.keys (b.queues.erase name)).card : Int)
    rw [hkeys, Finset.card_erase_of_mem hmem, hcount, GoMap.len]
    omega
  · change (Finmap.keys (b.queues.erase name)).card ≤ 128
    rw [hkeys]
    exact hlimit

theorem step {event : BrokerEvent} (hinStep : b.InStep) (hsane : b.Sane)
    (hstep : b.step event = some next) : next.InStep := by
  cases registers_of_step hsane hstep with
  | createQueue hmu name => exact hinStep.createQueue hmu name
  | register hmu => exact hinStep.register hmu (hsane.wired.creating _ hmu)
  | deleteQueue hmu name => exact hinStep.deleteQueue hmu name
  | @unregister name object hmu =>
      have hlookup := hsane.wired.deleting name object hmu
      obtain ⟨q, hq, -, -⟩ := hsane.wired.registered name object hlookup
      exact hinStep.unregister hmu hlookup hq
  | quiet hqueues hcount hmu hcat =>
      have hlisted : next.listed = b.listed := by rw [listed, listed, hmu, hqueues]
      exact ⟨by rw [hcat, hinStep.names, hlisted], by rw [hcount, hqueues, hinStep.count],
        hlisted ▸ hinStep.limit⟩

theorem card_cat_le (hinStep : b.InStep) : b.cat.keys.card ≤ 128 := by
  rw [hinStep.names]
  exact hinStep.limit

end InStep

end Broker

end SimonMQ.Durable
