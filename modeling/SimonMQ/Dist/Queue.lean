import SimonMQ.Go.Slice
import SimonMQ.Go.Strconv

namespace SimonMQ.Dist

open SimonMQ.Go
open SimonMQ.Go.Slice

/-! The leader-local delivery buffer: a ring of pointers that grows and shrinks, and a
channel with one slot that wakes the worker. -/

def initialCapacity : Nat := 10

/-- The buffer of messages of type `α`.  A cell is a pointer that may be nil. -/
structure Queue (α : Type) where
  name : GoString
  buf : List (Option α)
  head : Nat
  count : Nat
  /-- the slot of the channel is taken -/
  hasWork : Bool
  deriving Repr, DecidableEq

def newQueue (α : Type) (name : GoString) : Queue α where
  name := name
  buf := List.replicate initialCapacity none
  head := 0
  count := 0
  hasWork := false

namespace Queue

variable {α : Type}

def copyOver (q : Queue α) (newBuf : List (Option α)) : Except Panic (Queue α) :=
  if q.count > newBuf.length then
    .error (.message (lit "copyOver: count " ++ formatUint q.count ++
      lit " exceeds newBuf capacity " ++ formatUint newBuf.length))
  else do
    let front ← sliceFrom q.buf q.head
    let newBuf := copy newBuf front
    let nItemsCopied := front.length
    -- A negative difference is only ever compared with zero.
    let remaining := q.count - nItemsCopied
    if remaining > 0 then do
      let tail ← sliceFrom newBuf nItemsCopied
      let wrapped ← sliceTo q.buf remaining
      return { q with buf := newBuf.take nItemsCopied ++ copy tail wrapped, head := 0 }
    else
      return { q with buf := newBuf, head := 0 }

def grow (q : Queue α) : Except Panic (Queue α) :=
  q.copyOver (List.replicate (q.buf.length * 2) none)

def compact (q : Queue α) : Except Panic (Queue α) :=
  q.copyOver (List.replicate (max (q.buf.length / 2) initialCapacity) none)

/-- What `Add` does under the lock. -/
def insert (q : Queue α) (msg : Option α) : Except Panic (Queue α) := do
  let ind ← remainder (q.head + q.count) q.buf.length
  let buf ← store q.buf ind msg
  let q := { q with buf := buf, count := q.count + 1 }
  if q.count ≥ q.buf.length then q.grow else return q

/-- The send that does not block. -/
def signal (q : Queue α) : Queue α := { q with hasWork := true }

def add (q : Queue α) (msg : Option α) : Except Panic (Queue α) := do
  let q ← q.insert msg
  return q.signal

def pop (q : Queue α) : Except Panic (Option α × Queue α) :=
  if q.count = 0 then
    return (none, q)
  else do
    let msg ← load q.buf q.head
    let buf ← store q.buf q.head none
    let head ← remainder (q.head + 1) buf.length
    let q := { q with buf := buf, head := head, count := q.count - 1 }
    if q.count * 4 ≤ q.buf.length then
      let q ← q.compact
      return (msg, q)
    else
      return (msg, q)

def len (q : Queue α) : Nat := q.count

/-! Every cell of the ring, from the head on once round: the messages, then nil. -/

/-- The buffer holds these messages, oldest first, and nothing else. -/
structure Holds (q : Queue α) (msgs : List (Option α)) : Prop where
  capacity : initialCapacity ≤ q.buf.length
  head_lt : q.head < q.buf.length
  count_eq : q.count = msgs.length
  count_lt : q.count < q.buf.length
  cells : q.buf.rotate q.head = msgs ++ List.replicate (q.buf.length - msgs.length) none

theorem newQueue_holds (name : GoString) : (newQueue α name).Holds [] where
  capacity := by simp [newQueue]
  head_lt := by simp [newQueue, initialCapacity]
  count_eq := rfl
  count_lt := by simp [newQueue, initialCapacity]
  cells := by simp [newQueue]

theorem copy_replicate (capacity : Nat) (src : List (Option α)) :
    copy (List.replicate capacity none) src =
      src.take capacity ++ List.replicate (capacity - src.length) none := by
  rw [copy, List.length_replicate, List.drop_replicate]

section Pieces

variable {buf msgs : List (Option α)} {head : Nat}

theorem drop_of_cells (hhead : head ≤ buf.length)
    (hcells : buf.rotate head = msgs ++ List.replicate (buf.length - msgs.length) none) :
    buf.drop head = msgs.take (buf.length - head) ++
      List.replicate (buf.length - head - msgs.length) none := by
  have hlength : (buf.drop head).length = buf.length - head := List.length_drop
  rw [List.rotate_eq_drop_append_take hhead] at hcells
  rw [← List.take_left' hlength, hcells, List.take_append, List.take_replicate]
  congr 2
  omega

theorem take_of_cells (hhead : head ≤ buf.length) (hwrap : buf.length - head ≤ msgs.length)
    (hcells : buf.rotate head = msgs ++ List.replicate (buf.length - msgs.length) none) :
    buf.take head = msgs.drop (buf.length - head) ++
      List.replicate (buf.length - msgs.length) none := by
  have hlength : (buf.drop head).length = buf.length - head := List.length_drop
  rw [List.rotate_eq_drop_append_take hhead] at hcells
  rw [← List.drop_append_of_le_length hwrap, ← hcells, List.drop_left' hlength]

end Pieces

/-- `copyOver` brings the messages to the front of a cleared buffer and leaves the rest
of it clear, wherever they start and also where they wrap. -/
theorem copyOver_eq {q : Queue α} {msgs : List (Option α)} {capacity : Nat}
    (hhead : q.head ≤ q.buf.length) (hcount : q.count = msgs.length)
    (hcells : q.buf.rotate q.head =
      msgs ++ List.replicate (q.buf.length - msgs.length) none)
    (hfits : q.count ≤ capacity) :
    q.copyOver (List.replicate capacity none) =
      .ok { q with
        buf := msgs ++ List.replicate (capacity - msgs.length) none
        head := 0 } := by
  have hlength : msgs.length ≤ q.buf.length := by
    have hcells := congrArg List.length hcells
    rw [List.length_rotate, List.length_append, List.length_replicate] at hcells
    omega
  have hfrontLength : (q.buf.drop q.head).length = q.buf.length - q.head := List.length_drop
  have hfront := drop_of_cells hhead hcells
  rw [copyOver, if_neg (by simpa using hfits), sliceFrom_of_le hhead]
  simp only [bind, Except.bind, pure, Except.pure, hfrontLength, copy_replicate]
  by_cases hwrap : q.count - (q.buf.length - q.head) > 0
  · have hwhole : q.buf.drop q.head = msgs.take (q.buf.length - q.head) := by
      have hnone : q.buf.length - q.head - msgs.length = 0 := by omega
      rw [hfront, hnone, List.replicate_zero, List.append_nil]
    have hwrapped : q.buf.take (q.count - (q.buf.length - q.head)) =
        msgs.drop (q.buf.length - q.head) := by
      have hwithin : q.buf.take (q.count - (q.buf.length - q.head)) =
          (q.buf.take q.head).take (q.count - (q.buf.length - q.head)) := by
        rw [List.take_take, Nat.min_eq_left (by omega)]
      rw [hwithin, take_of_cells hhead (by omega) hcells]
      exact List.take_left' (by rw [List.length_drop]; omega)
    have hmoved : (msgs.take (q.buf.length - q.head)).take capacity =
        msgs.take (q.buf.length - q.head) := by
      rw [List.take_take, Nat.min_eq_right (by omega)]
    have hpiece : (msgs.take (q.buf.length - q.head)).length = q.buf.length - q.head := by
      rw [List.length_take]
      omega
    have hrest : (msgs.drop (q.buf.length - q.head)).take
        (capacity - (q.buf.length - q.head)) = msgs.drop (q.buf.length - q.head) :=
      List.take_of_length_le (by rw [List.length_drop]; omega)
    rw [if_pos hwrap, hwhole, hmoved,
      sliceFrom_of_le (by rw [List.length_append, hpiece]; omega), List.drop_left' hpiece,
      List.take_left' hpiece, sliceTo_of_le (by omega), hwrapped]
    simp only [copy_replicate, List.length_drop]
    rw [hrest, ← List.append_assoc, List.take_append_drop]
    congr 4
    omega
  · have hall : msgs.take (q.buf.length - q.head) = msgs :=
      List.take_of_length_le (by omega)
    rw [if_neg hwrap, hfront, hall, List.take_append, List.take_of_length_le (by omega),
      List.take_replicate, List.append_assoc, List.replicate_append_replicate]
    congr 4
    omega

theorem copyOver_holds {q : Queue α} {msgs : List (Option α)} {capacity : Nat}
    (hhead : q.head ≤ q.buf.length) (hcount : q.count = msgs.length)
    (hcells : q.buf.rotate q.head =
      msgs ++ List.replicate (q.buf.length - msgs.length) none)
    (hfits : q.count < capacity) (hcapacity : initialCapacity ≤ capacity) :
    ∃ next, q.copyOver (List.replicate capacity none) = .ok next ∧ next.Holds msgs ∧
      next.hasWork = q.hasWork := by
  have hlength : (msgs ++ List.replicate (capacity - msgs.length) (none : Option α)).length =
      capacity := by
    rw [List.length_append, List.length_replicate]
    omega
  refine ⟨_, copyOver_eq hhead hcount hcells (Nat.le_of_lt hfits), ?_, rfl⟩
  exact {
    capacity := by rw [hlength]; exact hcapacity
    head_lt := by rw [hlength]; exact Nat.zero_lt_of_lt hfits
    count_eq := hcount
    count_lt := by rw [hlength]; exact hfits
    cells := by rw [List.rotate_zero, hlength] }

theorem Holds.insert {q : Queue α} {msgs : List (Option α)} (hholds : q.Holds msgs)
    (msg : Option α) :
    ∃ next, q.insert msg = .ok next ∧ next.Holds (msgs ++ [msg]) ∧
      next.hasWork = q.hasWork := by
  have hlt := hholds.count_lt
  have hcount := hholds.count_eq
  have hcapacity := hholds.capacity
  have hhead := hholds.head_lt
  have hpos : 0 < q.buf.length := Nat.zero_lt_of_lt hhead
  have hind : (q.head + q.count) % q.buf.length < q.buf.length := Nat.mod_lt _ hpos
  have hfree : List.replicate (q.buf.length - msgs.length) (none : Option α) =
      none :: List.replicate (q.buf.length - (msgs ++ [msg]).length) none := by
    rw [List.length_append, List.length_singleton, ← List.replicate_succ]
    congr 1
    omega
  have hcells : (q.buf.set ((q.head + q.count) % q.buf.length) msg).rotate q.head =
      msgs ++ [msg] ++ List.replicate (q.buf.length - (msgs ++ [msg]).length) none := by
    rw [Nat.add_comm, rotate_set hlt, hholds.cells, hcount, hfree,
      List.set_append_right _ _ (Nat.le_refl _), Nat.sub_self, List.set_cons_zero,
      List.append_assoc, List.singleton_append]
  rw [Queue.insert, remainder_of_pos hpos]
  simp only [bind, Except.bind, store_of_lt hind, List.length_set, pure, Except.pure]
  split
  next hfull =>
      apply copyOver_holds
      · simpa using Nat.le_of_lt hhead
      · rw [List.length_append, List.length_singleton, ← hcount]
      · rw [List.length_set]
        exact hcells
      · rw [List.length_set]
        change q.count + 1 < q.buf.length * 2
        omega
      · rw [List.length_set]
        omega
  next hroom =>
      refine ⟨_, rfl, ?_, rfl⟩
      exact {
        capacity := by simpa using hcapacity
        head_lt := by simpa using hhead
        count_eq := by rw [List.length_append, List.length_singleton, ← hcount]
        count_lt := by simpa using hroom
        cells := by rw [List.length_set]; exact hcells }

theorem Holds.pop_nil {q : Queue α} (hholds : q.Holds []) : q.pop = .ok (none, q) :=
  if_pos hholds.count_eq

theorem Holds.pop_cons {q : Queue α} {msg : Option α} {msgs : List (Option α)}
    (hholds : q.Holds (msg :: msgs)) :
    ∃ next, q.pop = .ok (msg, next) ∧ next.Holds msgs ∧ next.hasWork = q.hasWork := by
  have hlt := hholds.count_lt
  have hcount : q.count = msgs.length + 1 := hholds.count_eq
  have hcapacity := hholds.capacity
  have hhead := hholds.head_lt
  have hpos : 0 < q.buf.length := Nat.zero_lt_of_lt hhead
  have hfirst : q.buf[q.head] = msg := by
    have hcell := List.head?_rotate hhead
    rw [hholds.cells, List.cons_append, List.head?_cons, List.getElem?_eq_getElem hhead,
      Option.some.injEq] at hcell
    exact hcell.symm
  have hcells : (q.buf.set q.head none).rotate ((q.head + 1) % q.buf.length) =
      msgs ++ List.replicate (q.buf.length - msgs.length) none := by
    have hcleared : (q.buf.set q.head none).rotate q.head =
        none :: (msgs ++ List.replicate (q.buf.length - (msgs.length + 1)) none) := by
      have hset := rotate_set hpos q.head (none : Option α)
      rw [Nat.zero_add, Nat.mod_eq_of_lt hhead] at hset
      rw [hset, hholds.cells]
      rfl
    have hwrap : (q.buf.set q.head none).rotate ((q.head + 1) % q.buf.length) =
        ((q.buf.set q.head none).rotate q.head).rotate 1 := by
      rw [List.rotate_rotate, ← List.rotate_mod _ (q.head + 1), List.length_set]
    rw [hwrap, hcleared, List.rotate_cons_succ, List.rotate_zero, List.append_assoc,
      ← List.replicate_succ']
    congr 2
    omega
  rw [pop, if_neg (by omega), load_of_lt hhead, store_of_lt hhead]
  simp only [bind, Except.bind, List.length_set, remainder_of_pos hpos, pure, Except.pure,
    hfirst, hcount, Nat.add_sub_cancel]
  split
  next hsparse =>
      have hfits : msgs.length < max (q.buf.length / 2) initialCapacity := by
        rw [initialCapacity]
        omega
      have hcells : (q.buf.set q.head none).rotate ((q.head + 1) % q.buf.length) =
          msgs ++ List.replicate ((q.buf.set q.head none).length - msgs.length) none := by
        rw [List.length_set]
        exact hcells
      obtain ⟨next, hcompact, hnext, hwork⟩ := copyOver_holds
        (q := { q with
          buf := q.buf.set q.head none
          head := (q.head + 1) % q.buf.length
          count := msgs.length })
        (by simpa using Nat.le_of_lt (Nat.mod_lt _ hpos)) rfl hcells hfits
        (Nat.le_max_right _ _)
      refine ⟨next, ?_, hnext, hwork⟩
      simp only [compact, List.length_set, hcompact]
  next hdense =>
      refine ⟨_, rfl, ?_, rfl⟩
      exact {
        capacity := by simpa using hcapacity
        head_lt := by simpa using Nat.mod_lt _ hpos
        count_eq := rfl
        count_lt := by
          change msgs.length < (q.buf.set q.head none).length
          rw [List.length_set]
          omega
        cells := by rw [List.length_set]; exact hcells }

theorem Holds.vacant {q : Queue α} {msgs : List (Option α)} (hholds : q.Holds msgs)
    {slot : Nat} (hslot : slot < q.buf.length)
    (houtside : ∀ offset < q.count, slot ≠ (q.head + offset) % q.buf.length) :
    q.buf[slot]? = some none := by
  have hhead := hholds.head_lt
  have hcount := hholds.count_eq
  obtain ⟨offset, hoffset, hround⟩ : ∃ offset, offset < q.buf.length ∧
      slot = (q.head + offset) % q.buf.length := by
    by_cases hbehind : q.head ≤ slot
    · refine ⟨slot - q.head, by omega, ?_⟩
      rw [Nat.add_sub_cancel' hbehind, Nat.mod_eq_of_lt hslot]
    · refine ⟨q.buf.length - q.head + slot, by omega, ?_⟩
      have hsum : q.head + (q.buf.length - q.head + slot) = slot + q.buf.length := by omega
      rw [hsum, Nat.add_mod_right, Nat.mod_eq_of_lt hslot]
  have hpast : msgs.length ≤ offset := by
    rw [← hcount]
    by_contra hwithin
    exact houtside offset (by omega) hround
  have hcell : (q.buf.rotate q.head)[offset]? = q.buf[slot]? := by
    rw [List.getElem?_rotate hoffset, Nat.add_comm, hround]
  rw [← hcell, hholds.cells, List.getElem?_append_right hpast,
    List.getElem?_replicate_of_lt (by omega)]

theorem Holds.referenced {q : Queue α} {msgs : List (Option α)} (hholds : q.Holds msgs) :
    (q.buf.filter Option.isSome).Perm (msgs.filter Option.isSome) := by
  have hperm : q.buf.Perm (msgs ++ List.replicate (q.buf.length - msgs.length) none) := by
    rw [← hholds.cells]
    exact (List.rotate_perm q.buf q.head).symm
  have hfilter := hperm.filter Option.isSome
  rw [List.filter_append, List.filter_replicate] at hfilter
  simpa using hfilter

inductive Op (α : Type)
  | add (msg : Option α)
  | pop
  | len
  deriving DecidableEq, Repr

inductive Answer (α : Type)
  | added
  | popped (msg : Option α)
  | length (count : Nat)
  deriving DecidableEq, Repr

def perform (q : Queue α) : Op α → Except Panic (Answer α × Queue α)
  | .add msg => do
      let q ← q.add msg
      return (.added, q)
  | .pop => do
      let (msg, q) ← q.pop
      return (.popped msg, q)
  | .len => return (.length q.len, q)

def run (q : Queue α) : List (Op α) → Except Panic (List (Answer α) × Queue α)
  | [] => return ([], q)
  | op :: ops => do
      let (answer, q) ← q.perform op
      let (answers, q) ← q.run ops
      return (answer :: answers, q)

def Op.onList : List (Option α) → Op α → Answer α × List (Option α)
  | msgs, .add msg => (.added, msgs ++ [msg])
  | [], .pop => (.popped none, [])
  | msg :: msgs, .pop => (.popped msg, msgs)
  | msgs, .len => (.length msgs.length, msgs)

def runOnList (msgs : List (Option α)) : List (Op α) → List (Answer α) × List (Option α)
  | [] => ([], msgs)
  | op :: ops =>
      let (answer, msgs) := op.onList msgs
      let (answers, msgs) := runOnList msgs ops
      (answer :: answers, msgs)

theorem Holds.signal {q : Queue α} {msgs : List (Option α)} (hholds : q.Holds msgs) :
    q.signal.Holds msgs :=
  ⟨hholds.capacity, hholds.head_lt, hholds.count_eq, hholds.count_lt, hholds.cells⟩

theorem Holds.perform {q : Queue α} {msgs : List (Option α)} (hholds : q.Holds msgs)
    (op : Op α) :
    ∃ next, q.perform op = .ok ((op.onList msgs).1, next) ∧
      next.Holds (op.onList msgs).2 := by
  cases op with
  | add msg =>
      obtain ⟨next, hinsert, hnext, _⟩ := hholds.insert msg
      refine ⟨next.signal, ?_, hnext.signal⟩
      simp only [Queue.perform, add, hinsert, bind, Except.bind, pure, Except.pure, Op.onList]
  | pop =>
      cases msgs with
      | nil =>
          refine ⟨q, ?_, hholds⟩
          simp only [Queue.perform, hholds.pop_nil, bind, Except.bind, pure, Except.pure,
            Op.onList]
      | cons msg msgs =>
          obtain ⟨next, hpop, hnext, _⟩ := hholds.pop_cons
          refine ⟨next, ?_, hnext⟩
          simp only [Queue.perform, hpop, bind, Except.bind, pure, Except.pure, Op.onList]
  | len =>
      have honList : Op.onList msgs .len = (.length msgs.length, msgs) := by
        cases msgs <;> rfl
      rw [honList]
      refine ⟨q, ?_, hholds⟩
      rw [Queue.perform, len, hholds.count_eq]
      rfl

theorem Holds.run {q : Queue α} {msgs : List (Option α)} (hholds : q.Holds msgs)
    (ops : List (Op α)) :
    ∃ final, q.run ops = .ok ((runOnList msgs ops).1, final) ∧
      final.Holds (runOnList msgs ops).2 := by
  induction ops generalizing q msgs with
  | nil => exact ⟨q, rfl, hholds⟩
  | cons op ops ih =>
      obtain ⟨next, hperform, hnext⟩ := hholds.perform op
      obtain ⟨final, hrun, hfinal⟩ := ih hnext
      refine ⟨final, ?_, hfinal⟩
      simp only [Queue.run, hperform, hrun, bind, Except.bind, pure, Except.pure, runOnList]

/-- The buffer answers as an unbounded list does, never panics, keeps a free cell among
at least ten, and refers to nothing but the messages that wait in it. -/
theorem buffer_is_fifo (name : GoString) (ops : List (Op α)) :
    ∃ q, (newQueue α name).run ops = .ok ((runOnList [] ops).1, q) ∧
      q.count < q.buf.length ∧ initialCapacity ≤ q.buf.length ∧
      (∀ slot, slot < q.buf.length →
        (∀ offset < q.count, slot ≠ (q.head + offset) % q.buf.length) →
          q.buf[slot]? = some none) ∧
      (q.buf.filter Option.isSome).Perm ((runOnList [] ops).2.filter Option.isSome) := by
  obtain ⟨q, hrun, hholds⟩ := (newQueue_holds name).run ops
  exact ⟨q, hrun, hholds.count_lt, hholds.capacity, fun slot => hholds.vacant,
    hholds.referenced⟩

end Queue

end SimonMQ.Dist
