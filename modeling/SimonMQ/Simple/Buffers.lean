import SimonMQ.Simple.Ring
import SimonMQ.Transition

namespace SimonMQ.Simple

open SimonMQ.Go
open SimonMQ.Transition

/-! The rings of all queue objects of a broker, against the lists of what is in them. -/

variable {M : Type}

/-- What the code of a broker does to the ring of one of its objects. -/
inductive BufferOp (M : Type)
  | make (name : GoString)
  | add (object : Nat) (msg : M)
  | pop (object : Nat)

namespace BufferOp

/-- The operation on the rings, with the pointer that a `Pop` returns. -/
def onRings (rings : List (RingQueue M)) :
    BufferOp M → Except Panic (List (RingQueue M) × List (Option M))
  | .make name => return (rings ++ [newQueue name], [])
  | .add object msg =>
      match rings[object]? with
      | none => return (rings, [])
      | some ring => do
          let ring ← ring.add msg
          return (rings.set object ring, [])
  | .pop object =>
      match rings[object]? with
      | none => return (rings, [])
      | some ring => do
          let (msg, ring) ← ring.pop
          return (rings.set object ring, [msg])

/-- The same on lists. -/
def onLists (bufs : List (List M)) : BufferOp M → List (List M) × List (Option M)
  | .make _ => (bufs ++ [[]], [])
  | .add object msg =>
      match bufs[object]? with
      | none => (bufs, [])
      | some buf => (bufs.set object (buf ++ [msg]), [])
  | .pop object =>
      match bufs[object]? with
      | none => (bufs, [])
      | some buf => (bufs.set object buf.tail, [buf.head?])

end BufferOp

def runRings (rings : List (RingQueue M)) :
    List (BufferOp M) → Except Panic (List (RingQueue M) × List (Option M))
  | [] => return (rings, [])
  | op :: ops => do
      let (rings, first) ← op.onRings rings
      let (rings, later) ← runRings rings ops
      return (rings, first ++ later)

def runLists (bufs : List (List M)) :
    List (BufferOp M) → List (List M) × List (Option M)
  | [] => (bufs, [])
  | op :: ops =>
      let (bufs, first) := op.onLists bufs
      let (bufs, later) := runLists bufs ops
      (bufs, first ++ later)

theorem runLists_append (bufs : List (List M)) (before after : List (BufferOp M)) :
    runLists bufs (before ++ after) =
      ((runLists (runLists bufs before).1 after).1,
        (runLists bufs before).2 ++ (runLists (runLists bufs before).1 after).2) := by
  induction before generalizing bufs with
  | nil => rfl
  | cons op before ih => simp [runLists, ih, List.append_assoc]

/-- Each ring holds the messages of its list. -/
structure HoldAll (rings : List (RingQueue M)) (bufs : List (List M)) : Prop where
  length : rings.length = bufs.length
  holds : ∀ {object : Nat} {ring : RingQueue M} {buf : List M},
    rings[object]? = some ring → bufs[object]? = some buf → ring.Holds buf

namespace HoldAll

variable {rings : List (RingQueue M)} {bufs : List (List M)}

theorem nil : HoldAll ([] : List (RingQueue M)) [] where
  length := rfl
  holds := by simp

theorem concat (hold : HoldAll rings bufs) {ring : RingQueue M} {buf : List M}
    (hring : ring.Holds buf) : HoldAll (rings ++ [ring]) (bufs ++ [buf]) where
  length := by simp [hold.length]
  holds := by
    intro object found contents hfound hcontents
    rw [List.getElem?_append] at hfound hcontents
    rw [hold.length] at hfound
    split_ifs at hfound hcontents
    · exact hold.holds hfound hcontents
    · rw [List.getElem?_singleton] at hfound hcontents
      split_ifs at hfound hcontents
      cases hfound
      cases hcontents
      exact hring

theorem set (hold : HoldAll rings bufs) {object : Nat} {ring : RingQueue M} {buf : List M}
    (hring : ring.Holds buf) : HoldAll (rings.set object ring) (bufs.set object buf) where
  length := by simp [hold.length]
  holds := by
    intro other found contents hfound hcontents
    rw [List.getElem?_set] at hfound hcontents
    rw [hold.length] at hfound
    split_ifs at hfound hcontents
    · cases hfound
      cases hcontents
      exact hring
    · exact hold.holds hfound hcontents

theorem cases_at (hold : HoldAll rings bufs) (object : Nat) :
    (rings[object]? = none ∧ bufs[object]? = none) ∨
      ∃ ring buf, rings[object]? = some ring ∧ bufs[object]? = some buf ∧ ring.Holds buf := by
  by_cases hlt : object < rings.length
  · have hbufs : object < bufs.length := hold.length ▸ hlt
    exact .inr ⟨_, _, List.getElem?_eq_getElem hlt, List.getElem?_eq_getElem hbufs,
      hold.holds (List.getElem?_eq_getElem hlt) (List.getElem?_eq_getElem hbufs)⟩
  · exact .inl ⟨List.getElem?_eq_none (by omega),
      List.getElem?_eq_none (by rw [← hold.length]; omega)⟩

theorem onRings (hold : HoldAll rings bufs) (op : BufferOp M) :
    ∃ next, op.onRings rings = .ok (next, (op.onLists bufs).2) ∧
      HoldAll next (op.onLists bufs).1 := by
  cases op with
  | make name => exact ⟨_, rfl, hold.concat (RingQueue.newQueue_holds name)⟩
  | add object msg =>
      rcases hold.cases_at object with ⟨hring, hbuf⟩ | ⟨ring, buf, hring, hbuf, hholds⟩
      · simp only [BufferOp.onRings, BufferOp.onLists, hring, hbuf]
        exact ⟨rings, rfl, hold⟩
      · obtain ⟨next, hadd, hnext⟩ := hholds.add msg
        simp only [BufferOp.onRings, BufferOp.onLists, hring, hbuf, hadd]
        exact ⟨_, rfl, hold.set hnext⟩
  | pop object =>
      rcases hold.cases_at object with ⟨hring, hbuf⟩ | ⟨ring, buf, hring, hbuf, hholds⟩
      · simp only [BufferOp.onRings, BufferOp.onLists, hring, hbuf]
        exact ⟨rings, rfl, hold⟩
      · simp only [BufferOp.onRings, BufferOp.onLists, hring, hbuf]
        cases buf with
        | nil =>
            rw [hholds.pop_nil]
            exact ⟨_, rfl, hold.set hholds⟩
        | cons msg buf =>
            obtain ⟨next, hpop, hnext⟩ := hholds.pop_cons
            rw [hpop]
            exact ⟨_, rfl, hold.set hnext⟩

theorem runRings (hold : HoldAll rings bufs) (ops : List (BufferOp M)) :
    ∃ next, Simple.runRings rings ops = .ok (next, (runLists bufs ops).2) ∧
      HoldAll next (runLists bufs ops).1 := by
  induction ops generalizing rings bufs with
  | nil => exact ⟨rings, rfl, hold⟩
  | cons op ops ih =>
      obtain ⟨between, hop, hbetween⟩ := hold.onRings op
      obtain ⟨next, hrun, hnext⟩ := ih hbetween
      refine ⟨next, ?_, hnext⟩
      rw [Simple.runRings, hop]
      simp only [bind, Except.bind, hrun]
      rfl

end HoldAll

/-- Lists that come about by calls on no rings, none of which is a `Pop`. -/
def Made (bufs : List (List M)) : Prop :=
  ∃ ops : List (BufferOp M), runLists [] ops = (bufs, [])

namespace Made

variable {bufs : List (List M)}

theorem nil : Made ([] : List (List M)) := ⟨[], rfl⟩

theorem concat (hmade : Made bufs) : Made (bufs ++ [[]]) := by
  obtain ⟨ops, hops⟩ := hmade
  refine ⟨ops ++ [.make []], ?_⟩
  rw [runLists_append, hops]
  rfl

theorem add (hmade : Made bufs) {object : Nat} {buf : List M}
    (hbuf : bufs[object]? = some buf) (msg : M) : Made (bufs.set object (buf ++ [msg])) := by
  obtain ⟨ops, hops⟩ := hmade
  refine ⟨ops ++ [.add object msg], ?_⟩
  simp [runLists_append, hops, runLists, BufferOp.onLists, hbuf]

theorem exists_rings (hmade : Made bufs) :
    ∃ ops rings, runRings [] ops = .ok (rings, []) ∧ HoldAll rings bufs := by
  obtain ⟨ops, hops⟩ := hmade
  have hrun := HoldAll.nil.runRings ops
  rw [hops] at hrun
  exact ⟨ops, hrun⟩

end Made

theorem set_of_getElem? {α : Type} {items : List α} {index : Nat} {item : α}
    (hitem : items[index]? = some item) : items.set index item = items := by
  obtain ⟨hlt, rfl⟩ := List.getElem?_eq_some_iff.mp hitem
  exact List.set_getElem_self hlt

section Runs

variable {S E : Type} {step : S → E → Option S} {bufs : S → List (List M)}
  {ops : S → E → List (BufferOp M)} {taken : S → E → List (Option M)}

theorem runLists_trace
    (hstep : ∀ {state event next}, step state event = some next →
      runLists (bufs state) (ops state event) = (bufs next, taken state event))
    {state final : S} {events : List E} (hexec : exec step state events = some final) :
    runLists (bufs state) (trace step ops state events) =
      (bufs final, trace step taken state events) := by
  induction events generalizing state with
  | nil =>
      cases hexec
      rfl
  | cons event events ih =>
      obtain ⟨next, hnext, hrest⟩ := exec_cons.mp hexec
      simp only [trace, hnext, runLists_append, hstep hnext, ih hrest]

/-- A machine whose buffers are lists can have rings instead: over every run the rings
hold the lists, none of their operations panics, and each `Pop` returns what the machine
takes. -/
theorem rings_follow
    (hstep : ∀ {state event next}, step state event = some next →
      runLists (bufs state) (ops state event) = (bufs next, taken state event))
    {state final : S} {events : List E} (hexec : exec step state events = some final)
    {rings : List (RingQueue M)} (hold : HoldAll rings (bufs state)) :
    ∃ next, runRings rings (trace step ops state events) =
        .ok (next, trace step taken state events) ∧
      HoldAll next (bufs final) := by
  have hrun := hold.runRings (trace step ops state events)
  rwa [runLists_trace hstep hexec] at hrun

end Runs

end SimonMQ.Simple
