import SimonMQ.Go.Slice
import SimonMQ.Go.Strconv

namespace SimonMQ.Simple

open SimonMQ.Go
open SimonMQ.Go.Slice

/-! The ring buffer of the second broker, which `push-mq` and `durable-mq` have word for
word, each with its own type of messages. -/

def initialCapacity : Nat := 10

variable {M : Type}

/-- A cell is a pointer that may be nil. -/
structure RingQueue (M : Type) where
  name : GoString
  count : Nat
  head : Nat
  buf : List (Option M)
  deriving Repr, DecidableEq

def newQueue (name : GoString) : RingQueue M :=
  { name := name, count := 0, head := 0, buf := List.replicate initialCapacity none }

namespace RingQueue

def copyOver (q : RingQueue M) (newBuf : List (Option M)) :
    Except Panic (RingQueue M) :=
  if q.count > newBuf.length then
    .error (.message (lit "copyOver: count " ++ formatUint q.count ++
      lit " exceeds newBuf capacity " ++ formatUint newBuf.length))
  else do
    let front ← sliceFrom q.buf q.head
    let newBuf := copy newBuf front
    let nItemsCopied := front.length
    -- A negative difference is only ever compared with zero.
    let remainingItemsToCopy := q.count - nItemsCopied
    if remainingItemsToCopy > 0 then do
      let tail ← sliceFrom newBuf nItemsCopied
      let wrapped ← sliceTo q.buf remainingItemsToCopy
      return { q with buf := newBuf.take nItemsCopied ++ copy tail wrapped, head := 0 }
    else
      return { q with buf := newBuf, head := 0 }

def grow (q : RingQueue M) : Except Panic (RingQueue M) :=
  q.copyOver (List.replicate (q.buf.length * 2) none)

def compact (q : RingQueue M) : Except Panic (RingQueue M) :=
  q.copyOver (List.replicate (max (q.buf.length / 2) initialCapacity) none)

def add (q : RingQueue M) (msg : M) : Except Panic (RingQueue M) := do
  let ind ← remainder (q.head + q.count) q.buf.length
  let buf ← store q.buf ind (some msg)
  let q := { q with buf := buf, count := q.count + 1 }
  if q.count ≥ q.buf.length then q.grow else return q

def pop (q : RingQueue M) : Except Panic (Option M × RingQueue M) :=
  if q.count = 0 then
    return (none, q)
  else do
    let msg ← load q.buf q.head
    let head ← remainder (q.head + 1) q.buf.length
    let q := { q with head := head, count := q.count - 1 }
    if q.count * 4 ≤ q.buf.length then
      let q ← q.compact
      return (msg, q)
    else
      return (msg, q)

/-! What a ring stands for.  Cells outside the window may hold anything: neither
`pop` nor `copyOver` clears them. -/

/-- The ring holds these messages, oldest first, and has a free cell. -/
structure Holds (q : RingQueue M) (msgs : List M) : Prop where
  head_lt : q.head < q.buf.length
  count_lt : q.count < q.buf.length
  window_eq : window q.buf q.head q.count = msgs.map some

theorem Holds.count_eq {q : RingQueue M} {msgs : List M} (hholds : q.Holds msgs) :
    q.count = msgs.length := by
  rw [← length_window (Nat.le_of_lt hholds.count_lt), hholds.window_eq,
    List.length_map]

theorem newQueue_holds (name : GoString) : (newQueue name : RingQueue M).Holds [] where
  head_lt := by simp [newQueue, initialCapacity]
  count_lt := by simp [newQueue, initialCapacity]
  window_eq := window_none _ _

/-- `copyOver` moves the window to the front of any buffer it fits in, wherever the
window starts and also when it wraps. -/
theorem copyOver_eq {q : RingQueue M} {newBuf : List (Option M)}
    (hhead : q.head ≤ q.buf.length) (hcount : q.count ≤ q.buf.length)
    (hfits : q.count ≤ newBuf.length) :
    ∃ buf, q.copyOver newBuf = .ok { q with buf := buf, head := 0 } ∧
      buf.length = newBuf.length ∧
      window buf 0 q.count = window q.buf q.head q.count := by
  have hdrop : (q.buf.drop q.head).length = q.buf.length - q.head := List.length_drop
  rw [copyOver, if_neg (Nat.not_lt.mpr hfits), sliceFrom_of_le hhead]
  simp only [bind, Except.bind, pure, Except.pure, hdrop, window_from_zero,
    window_eq_pieces hhead]
  by_cases hwrap : q.count - (q.buf.length - q.head) > 0
  · have hfront : q.buf.length - q.head ≤ (copy newBuf (q.buf.drop q.head)).length := by
      rw [length_copy]
      omega
    have hrest : q.count - (q.buf.length - q.head) ≤ q.buf.length := by omega
    rw [if_pos hwrap, sliceFrom_of_le hfront, sliceTo_of_le hrest]
    refine ⟨_, rfl, ?_, ?_⟩
    · simp only [List.length_append, List.length_take, length_copy, List.length_drop]
      omega
    · -- The first piece is the whole tail of the old buffer.
      have hpiece : (copy newBuf (q.buf.drop q.head)).take (q.buf.length - q.head) =
          q.buf.drop q.head := by
        rw [take_copy (by omega) (Nat.le_of_eq hdrop.symm), ← hdrop, List.take_length]
      rw [hpiece, List.take_append, hdrop, List.take_of_length_le (by omega),
        take_copy (by simp only [List.length_drop, length_copy]; omega)
          (by rw [List.length_take]; omega),
        List.take_take, List.take_take]
      congr 2
      omega
  · have hnone : q.count - (q.buf.length - q.head) = 0 := by omega
    rw [if_neg hwrap]
    refine ⟨_, rfl, length_copy _ _, ?_⟩
    rw [take_copy hfits (by omega), hnone, List.take_zero, List.append_nil]

theorem copyOver_holds {q : RingQueue M} {newBuf : List (Option M)}
    {msgs : List M} (hhead : q.head ≤ q.buf.length)
    (hcount : q.count ≤ q.buf.length) (hfits : q.count < newBuf.length)
    (hwindow : window q.buf q.head q.count = msgs.map some) :
    ∃ next, q.copyOver newBuf = .ok next ∧ next.Holds msgs := by
  obtain ⟨buf, hcopy, hlength, hsame⟩ :=
    copyOver_eq hhead hcount (Nat.le_of_lt hfits)
  refine ⟨_, hcopy, ?_, ?_, hsame.trans hwindow⟩
  · change 0 < buf.length
    omega
  · change q.count < buf.length
    omega

theorem Holds.add {q : RingQueue M} {msgs : List M} (hholds : q.Holds msgs)
    (msg : M) :
    ∃ next, q.add msg = .ok next ∧ next.Holds (msgs ++ [msg]) := by
  have hpos : 0 < q.buf.length := Nat.zero_lt_of_lt hholds.head_lt
  have hind : (q.head + q.count) % q.buf.length < q.buf.length := Nat.mod_lt _ hpos
  have hwindow := (window_store hholds.count_lt (some msg)).trans
    (congrArg (· ++ [some msg]) hholds.window_eq)
  rw [← List.map_singleton, ← List.map_append] at hwindow
  rw [RingQueue.add, remainder_of_pos hpos]
  simp only [bind, Except.bind, store_of_lt hind, List.length_set, pure, Except.pure]
  split
  next hfull =>
      have hcount := hholds.count_lt
      have hhead := hholds.head_lt
      exact copyOver_holds (by simpa using Nat.le_of_lt hhead)
        (by simpa using Nat.succ_le_of_lt hcount)
        (by simp only [List.length_replicate, List.length_set]; omega) hwindow
  next hroom =>
      exact ⟨_, rfl, by simpa using hholds.head_lt, by simpa using hroom, hwindow⟩

theorem Holds.pop_nil {q : RingQueue M} (hholds : q.Holds []) : q.pop = .ok (none, q) :=
  if_pos hholds.count_eq

theorem Holds.pop_cons {q : RingQueue M} {msg : M} {msgs : List M}
    (hholds : q.Holds (msg :: msgs)) :
    ∃ next, q.pop = .ok (some msg, next) ∧ next.Holds msgs := by
  have hcount : q.count = msgs.length + 1 := hholds.count_eq
  have hlt := hholds.count_lt
  have hhead := hholds.head_lt
  have hpos : 0 < q.buf.length := Nat.zero_lt_of_lt hhead
  have hmoved : (q.head + 1) % q.buf.length < q.buf.length := Nat.mod_lt _ hpos
  obtain ⟨hfirst, hwindow⟩ : q.buf[q.head] = some msg ∧
      window q.buf ((q.head + 1) % q.buf.length) msgs.length = msgs.map some := by
    have hadvance := hholds.window_eq
    rw [hcount, window_advance hhead (by omega), List.map_cons] at hadvance
    exact List.cons.inj hadvance
  rw [pop, if_neg (by omega), load_of_lt hhead]
  simp only [bind, Except.bind, remainder_of_pos hpos, pure, Except.pure, hfirst, hcount,
    Nat.add_sub_cancel]
  split
  next hsparse =>
      have hfits : msgs.length <
          (List.replicate (max (q.buf.length / 2) initialCapacity)
            (none : Option M)).length := by
        rw [List.length_replicate, initialCapacity]
        omega
      obtain ⟨next, hcompact, hnext⟩ := copyOver_holds
        (q := { q with head := (q.head + 1) % q.buf.length, count := msgs.length })
        (Nat.le_of_lt hmoved) (by change msgs.length ≤ q.buf.length; omega) hfits hwindow
      exact ⟨next, by rw [compact, hcompact], hnext⟩
  next hdense =>
      exact ⟨_, rfl, hmoved, by change msgs.length < q.buf.length; omega, hwindow⟩

end RingQueue

end SimonMQ.Simple
