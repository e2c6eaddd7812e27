import Mathlib.Logic.Basic

namespace SimonMQ.Transition

/-! Runs of a partial step function.  An event that is not enabled has no
successor state, and every choice the environment makes is part of the event. -/

section

variable {S E : Type} (step : S → E → Option S)

def exec : S → List E → Option S
  | state, [] => some state
  | state, event :: events =>
      match step state event with
      | none => none
      | some next => exec next events

/-- Every event of the run meets the condition in the state it starts from. -/
def Meets (condition : S → E → Prop) : S → List E → Prop
  | _, [] => True
  | state, event :: events =>
      condition state event ∧
        match step state event with
        | none => True
        | some next => Meets condition next events

/-- The property holds in every state of the run, the last one included. -/
def Throughout (P : S → Prop) : S → List E → Prop
  | state, [] => P state
  | state, event :: events =>
      P state ∧
        match step state event with
        | none => True
        | some next => Throughout P next events

/-- What a run lets be seen: each step that is taken shows the labels of its event. -/
def trace {L : Type} (labels : S → E → List L) : S → List E → List L
  | _, [] => []
  | state, event :: events =>
      match step state event with
      | none => []
      | some next => labels state event ++ trace labels next events

end

variable {S E : Type} {step : S → E → Option S}

instance decidableMeets {condition : S → E → Prop}
    [∀ state event, Decidable (condition state event)] :
    ∀ state events, Decidable (Meets step condition state events)
  | _, [] => isTrue trivial
  | state, event :: events =>
      match hstep : step state event with
      | none =>
          decidable_of_iff (condition state event) (by simp [Meets, hstep])
      | some next =>
          have : Decidable (Meets step condition next events) :=
            decidableMeets next events
          decidable_of_iff
            (condition state event ∧ Meets step condition next events)
            (by simp [Meets, hstep])

instance decidableThroughout {P : S → Prop} [DecidablePred P] :
    ∀ state events, Decidable (Throughout step P state events)
  | state, [] => inferInstanceAs (Decidable (P state))
  | state, event :: events =>
      match hstep : step state event with
      | none => decidable_of_iff (P state) (by simp [Throughout, hstep])
      | some next =>
          have : Decidable (Throughout step P next events) :=
            decidableThroughout next events
          decidable_of_iff (P state ∧ Throughout step P next events)
            (by simp [Throughout, hstep])

@[simp] theorem exec_nil (state : S) : exec step state [] = some state := rfl

theorem exec_cons {state final : S} {event : E} {events : List E} :
    exec step state (event :: events) = some final ↔
      ∃ next, step state event = some next ∧ exec step next events = some final := by
  rw [exec]
  cases step state event with
  | none => simp
  | some next => simp

theorem exec_append {state final : S} {before after : List E} :
    exec step state (before ++ after) = some final ↔
      ∃ middle, exec step state before = some middle ∧
        exec step middle after = some final := by
  induction before generalizing state with
  | nil => simp
  | cons event before ih =>
      rw [List.cons_append, exec_cons]
      constructor
      · rintro ⟨next, hnext, hrest⟩
        obtain ⟨middle, hbefore, hafter⟩ := ih.mp hrest
        exact ⟨middle, exec_cons.mpr ⟨next, hnext, hbefore⟩, hafter⟩
      · rintro ⟨middle, hbefore, hafter⟩
        obtain ⟨next, hnext, hrest⟩ := exec_cons.mp hbefore
        exact ⟨next, hnext, ih.mpr ⟨middle, hrest, hafter⟩⟩

theorem meets_cons {condition : S → E → Prop} {state next : S} {event : E}
    {events : List E} (hmeets : Meets step condition state (event :: events))
    (hnext : step state event = some next) :
    condition state event ∧ Meets step condition next events := by
  simpa [Meets, hnext] using hmeets

theorem meets_concat {condition : S → E → Prop} {state middle : S} {before : List E}
    {event : E} (hbefore : Meets step condition state before)
    (hexec : exec step state before = some middle) (hlast : condition middle event) :
    Meets step condition state (before ++ [event]) := by
  induction before generalizing state with
  | nil =>
      cases hexec
      exact ⟨hlast, by split <;> trivial⟩
  | cons first before ih =>
      obtain ⟨next, hnext, hrest⟩ := exec_cons.mp hexec
      obtain ⟨hfirst, htail⟩ := meets_cons hbefore hnext
      exact ⟨hfirst, by rw [hnext]; exact ih htail hrest⟩

theorem meets_append {condition : S → E → Prop} {state middle : S}
    {before after : List E}
    (hmeets : Meets step condition state (before ++ after))
    (hbefore : exec step state before = some middle) :
    Meets step condition state before ∧ Meets step condition middle after := by
  induction before generalizing state with
  | nil =>
      cases hbefore
      exact ⟨trivial, hmeets⟩
  | cons event before ih =>
      obtain ⟨next, hnext, hrest⟩ := exec_cons.mp hbefore
      obtain ⟨hcondition, htail⟩ := meets_cons hmeets hnext
      obtain ⟨hleft, hright⟩ := ih htail hrest
      refine ⟨?_, hright⟩
      simpa [Meets, hnext] using And.intro hcondition hleft

/-- A property that every admissible step keeps holds wherever a run leads. -/
theorem exec_invariant {condition : S → E → Prop} {P : S → Prop}
    (hstep : ∀ {state event next}, P state → condition state event →
      step state event = some next → P next)
    {state final : S} {events : List E} (hstate : P state)
    (hmeets : Meets step condition state events)
    (hexec : exec step state events = some final) : P final := by
  induction events generalizing state with
  | nil =>
      cases hexec
      exact hstate
  | cons event events ih =>
      obtain ⟨next, hnext, hrest⟩ := exec_cons.mp hexec
      obtain ⟨hcondition, htail⟩ := meets_cons hmeets hnext
      exact ih (hstep hstate hcondition hnext) htail hrest

theorem meets_of_invariant {allowed : E → Prop} {condition : S → E → Prop} {P : S → Prop}
    (hstep : ∀ {state event next}, P state → allowed event →
      step state event = some next → P next)
    (hcondition : ∀ {state event}, P state → allowed event → condition state event)
    {state : S} {events : List E} (hstate : P state)
    (hallowed : ∀ event ∈ events, allowed event) :
    Meets step condition state events := by
  induction events generalizing state with
  | nil => trivial
  | cons event events ih =>
      have hevent := hallowed event List.mem_cons_self
      refine ⟨hcondition hstate hevent, ?_⟩
      cases hnext : step state event with
      | none => trivial
      | some next =>
          exact ih (hstep hstate hevent hnext)
            fun other hmem => hallowed other (List.mem_cons_of_mem _ hmem)

theorem meets_of_forall {condition : E → Prop} {events : List E}
    (hevents : ∀ event ∈ events, condition event) (state : S) :
    Meets step (fun _ event => condition event) state events := by
  induction events generalizing state with
  | nil => trivial
  | cons event events ih =>
      refine ⟨hevents event List.mem_cons_self, ?_⟩
      cases step state event with
      | none => trivial
      | some next =>
          exact ih (fun later hmem => hevents later (List.mem_cons_of_mem _ hmem)) next

theorem Meets.and {first second : S → E → Prop} {state : S} {events : List E}
    (hfirst : Meets step first state events) (hsecond : Meets step second state events) :
    Meets step (fun state event => first state event ∧ second state event) state events := by
  induction events generalizing state with
  | nil => trivial
  | cons event events ih =>
      refine ⟨⟨hfirst.1, hsecond.1⟩, ?_⟩
      cases hnext : step state event with
      | none => trivial
      | some next => exact ih (meets_cons hfirst hnext).2 (meets_cons hsecond hnext).2

theorem exec_preserves {P : S → Prop}
    (hstep : ∀ {state event next}, P state → step state event = some next → P next)
    {start final : S} {events : List E} (hstart : P start)
    (hexec : exec step start events = some final) : P final :=
  exec_invariant (fun hstate _ hnext => hstep hstate hnext) hstart
    (meets_of_forall (fun _ _ => trivial) start) hexec

theorem throughout_head {P : S → Prop} {state : S} {events : List E}
    (hthroughout : Throughout step P state events) : P state := by
  cases events with
  | nil => exact hthroughout
  | cons event events => exact hthroughout.1

theorem exec_throughout {P Q : S → Prop}
    (hstep : ∀ {state event next}, P state → P next → Q state →
      step state event = some next → Q next)
    {state final : S} {events : List E} (hthroughout : Throughout step P state events)
    (hstate : Q state) (hexec : exec step state events = some final) : Q final := by
  induction events generalizing state with
  | nil =>
      cases hexec
      exact hstate
  | cons event events ih =>
      obtain ⟨next, hnext, hrest⟩ := exec_cons.mp hexec
      have hlater : Throughout step P next events := by
        simpa [Throughout, hnext] using hthroughout.2
      exact ih hlater (hstep hthroughout.1 (throughout_head hlater) hstate hnext) hrest

/-- A relation that every step extends relates the two ends of any run. -/
theorem exec_relates {R : S → S → Prop} (hrefl : ∀ state, R state state)
    (htrans : ∀ {first second third}, R first second → R second third → R first third)
    (hstep : ∀ {state event next}, step state event = some next → R state next)
    {state final : S} {events : List E}
    (hexec : exec step state events = some final) : R state final := by
  induction events generalizing state with
  | nil =>
      cases hexec
      exact hrefl _
  | cons event events ih =>
      obtain ⟨next, hnext, hrest⟩ := exec_cons.mp hexec
      exact htrans (hstep hnext) (ih hrest)

/-- A rank that every allowed step lowers bounds the length of a run. -/
theorem length_le_of_rank {allowed : E → Prop} {P : S → Prop} (rank : S → Nat)
    (hstep : ∀ {state event next}, P state → allowed event → step state event = some next →
      P next ∧ rank next < rank state)
    {state final : S} {events : List E} (hstate : P state)
    (hallowed : ∀ event ∈ events, allowed event)
    (hexec : exec step state events = some final) : events.length ≤ rank state := by
  induction events generalizing state with
  | nil => exact Nat.zero_le _
  | cons event events ih =>
      obtain ⟨next, hnext, hrest⟩ := exec_cons.mp hexec
      obtain ⟨hkept, hlower⟩ := hstep hstate (hallowed event List.mem_cons_self) hnext
      have hlength := ih hkept
        (fun later hmem => hallowed later (List.mem_cons_of_mem _ hmem)) hrest
      exact Nat.succ_le_of_lt (Nat.lt_of_le_of_lt hlength hlower)

section Trace

variable {L : Type} {labels : S → E → List L}

theorem trace_cons {state next : S} {event : E} {events : List E}
    (hnext : step state event = some next) :
    trace step labels state (event :: events) =
      labels state event ++ trace step labels next events := by
  rw [trace, hnext]

variable {P : S → List L → Prop}

theorem exec_traces_from {condition : S → E → Prop}
    (hstep : ∀ {state event next seen}, P state seen → condition state event →
      step state event = some next → P next (seen ++ labels state event))
    {start final : S} {seen : List L} {events : List E} (hstart : P start seen)
    (hmeets : Meets step condition start events)
    (hexec : exec step start events = some final) :
    P final (seen ++ trace step labels start events) := by
  induction events generalizing start seen with
  | nil =>
      cases hexec
      simpa [trace] using hstart
  | cons event events ih =>
      obtain ⟨next, hnext, hrest⟩ := exec_cons.mp hexec
      obtain ⟨hcondition, htail⟩ := meets_cons hmeets hnext
      rw [trace_cons hnext, ← List.append_assoc]
      exact ih (hstep hstart hcondition hnext) htail hrest

/-- A property of a state and of what was seen before it, kept by every admissible step,
holds wherever a run leads and of all that is seen on the way. -/
theorem exec_traces_invariant {condition : S → E → Prop}
    (hstep : ∀ {state event next seen}, P state seen → condition state event →
      step state event = some next → P next (seen ++ labels state event))
    {start final : S} {events : List E} (hstart : P start [])
    (hmeets : Meets step condition start events)
    (hexec : exec step start events = some final) :
    P final (trace step labels start events) :=
  exec_traces_from hstep hstart hmeets hexec

theorem exec_traces
    (hstep : ∀ {state event next seen}, P state seen → step state event = some next →
      P next (seen ++ labels state event))
    {start final : S} {events : List E} (hstart : P start [])
    (hexec : exec step start events = some final) :
    P final (trace step labels start events) :=
  exec_traces_invariant (fun hstate _ hnext => hstep hstate hnext) hstart
    (meets_of_forall (fun _ _ => trivial) start) hexec

end Trace

end SimonMQ.Transition
