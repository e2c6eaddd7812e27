import Mathlib.Data.List.Rotate
import Mathlib.Data.Nat.ModEq
import SimonMQ.Go.Binary

namespace SimonMQ.Go

/-! Slices with Go's run-time checks.  A slice here is one whose capacity is its
length, which is what `make([]T, n)` returns.  Lengths are bounded by memory, so
sums and products of them do not wrap. -/

/-- The ways in which an operation below stops the program. -/
inductive Panic
  | divideByZero
  | indexOutOfRange (index length : Nat)
  | sliceBoundsOutOfRange (bound capacity : Nat)
  | message (text : GoString)
  deriving Repr, DecidableEq

namespace Slice

variable {α : Type}

/-- `a % b`. -/
def remainder (a b : Nat) : Except Panic Nat :=
  if b = 0 then .error .divideByZero else .ok (a % b)

/-- `xs[index]`. -/
def load (xs : List α) (index : Nat) : Except Panic α :=
  match xs[index]? with
  | some x => .ok x
  | none => .error (.indexOutOfRange index xs.length)

/-- `xs[index] = x`. -/
def store (xs : List α) (index : Nat) (x : α) : Except Panic (List α) :=
  if index < xs.length then .ok (xs.set index x)
  else .error (.indexOutOfRange index xs.length)

/-- `xs[low:]`. -/
def sliceFrom (xs : List α) (low : Nat) : Except Panic (List α) :=
  if low ≤ xs.length then .ok (xs.drop low)
  else .error (.sliceBoundsOutOfRange low xs.length)

/-- `xs[:high]`. -/
def sliceTo (xs : List α) (high : Nat) : Except Panic (List α) :=
  if high ≤ xs.length then .ok (xs.take high)
  else .error (.sliceBoundsOutOfRange high xs.length)

/-- `xs[low:high]` of a slice that lies in this array from its first cell on.  The
bound is the capacity, not the length. -/
def slice (array : List α) (low high : Nat) : Except Panic (List α) :=
  if array.length < high then .error (.sliceBoundsOutOfRange high array.length)
  else if high < low then .error (.sliceBoundsOutOfRange low high)
  else .ok ((array.take high).drop low)

/-- `make([]T, length)`. -/
def make (length : Int) (zero : α) : Except Panic (List α) :=
  if length < 0 then .error (.message (lit "makeslice: len out of range"))
  else .ok (List.replicate length.toNat zero)

/-- `copy(dst, src)`, as the contents of `dst` afterwards. -/
def copy (dst src : List α) : List α :=
  src.take dst.length ++ dst.drop src.length

theorem remainder_of_pos {a b : Nat} (hpos : 0 < b) : remainder a b = .ok (a % b) :=
  if_neg (Nat.ne_of_gt hpos)

theorem load_of_lt {xs : List α} {index : Nat} (hindex : index < xs.length) :
    load xs index = .ok xs[index] := by
  rw [load, List.getElem?_eq_getElem hindex]

theorem store_of_lt {xs : List α} {index : Nat} (hindex : index < xs.length) (x : α) :
    store xs index x = .ok (xs.set index x) :=
  if_pos hindex

theorem sliceFrom_of_le {xs : List α} {low : Nat} (hlow : low ≤ xs.length) :
    sliceFrom xs low = .ok (xs.drop low) :=
  if_pos hlow

theorem sliceTo_of_le {xs : List α} {high : Nat} (hhigh : high ≤ xs.length) :
    sliceTo xs high = .ok (xs.take high) :=
  if_pos hhigh

theorem slice_of_le {array : List α} {low high : Nat} (hlow : low ≤ high)
    (hhigh : high ≤ array.length) : slice array low high = .ok ((array.take high).drop low) := by
  rw [slice, if_neg (Nat.not_lt.mpr hhigh), if_neg (Nat.not_lt.mpr hlow)]

theorem make_of_le {low high : Nat} (hle : low ≤ high) (zero : α) :
    make ((high : Int) - low) zero = .ok (List.replicate (high - low) zero) := by
  rw [make, if_neg (by omega)]
  congr 2
  omega

theorem copy_of_length_eq {dst src : List α} (hlength : dst.length = src.length) :
    copy dst src = src := by
  rw [copy, hlength, List.take_length, List.drop_eq_nil_of_le (by omega), List.append_nil]

@[simp] theorem length_copy (dst src : List α) :
    (copy dst src).length = dst.length := by
  simp only [copy, List.length_append, List.length_take, List.length_drop]
  omega

theorem take_copy {dst src : List α} {count : Nat} (hdst : count ≤ dst.length)
    (hsrc : count ≤ src.length) : (copy dst src).take count = src.take count := by
  have hlength : count ≤ (src.take dst.length).length := by
    rw [List.length_take]
    omega
  rw [copy, List.take_append_of_le_length hlength, List.take_take, Nat.min_eq_left hdst]

/-! The occupied part of a ring: `count` cells from `head` on, round the end. -/

def window (buf : List α) (head count : Nat) : List α :=
  (buf.rotate head).take count

@[simp] theorem window_none (buf : List α) (head : Nat) : window buf head 0 = [] :=
  List.take_zero

theorem window_from_zero (buf : List α) (count : Nat) :
    window buf 0 count = buf.take count := by
  rw [window, List.rotate_zero]

theorem length_window {buf : List α} {head count : Nat} (hcount : count ≤ buf.length) :
    (window buf head count).length = count := by
  rw [window, List.length_take, List.length_rotate, Nat.min_eq_left hcount]

theorem rotate_set {buf : List α} {offset : Nat} (hoffset : offset < buf.length)
    (head : Nat) (x : α) :
    (buf.set ((offset + head) % buf.length) x).rotate head =
      (buf.rotate head).set offset x := by
  apply List.ext_getElem
  · simp
  · intro index hleft hright
    have hindex : index < buf.length := by simpa using hleft
    rw [List.getElem_rotate, List.getElem_set, List.getElem_set, List.getElem_rotate]
    simp only [List.length_set]
    -- Offsets below one revolution name different cells.
    have hsame : (offset + head) % buf.length = (index + head) % buf.length ↔
        offset = index := by
      constructor
      · intro hcell
        have hcancel : Nat.ModEq buf.length offset index :=
          Nat.ModEq.add_right_cancel' head hcell
        rwa [Nat.ModEq, Nat.mod_eq_of_lt hoffset, Nat.mod_eq_of_lt hindex] at hcancel
      · rintro rfl
        rfl
    simp only [hsame]

theorem window_store {buf : List α} {head count : Nat} (hcount : count < buf.length)
    (x : α) :
    window (buf.set ((head + count) % buf.length) x) head (count + 1) =
      window buf head count ++ [x] := by
  have hrotated : count < ((buf.rotate head).set count x).length := by simpa using hcount
  rw [window, Nat.add_comm head, rotate_set hcount, List.take_succ_eq_append_getElem hrotated,
    List.getElem_set_self, List.take_set_of_le (Nat.le_refl count)]
  rfl

theorem window_advance {buf : List α} {head count : Nat} (hhead : head < buf.length)
    (hcount : count < buf.length) :
    window buf head (count + 1) =
      buf[head] :: window buf ((head + 1) % buf.length) count := by
  obtain ⟨rest, hrest⟩ : ∃ rest, buf.rotate head = buf[head] :: rest :=
    ⟨buf.drop (head + 1) ++ buf.take head, by
      rw [List.rotate_eq_drop_append_take (Nat.le_of_lt hhead),
        List.drop_eq_getElem_cons hhead, List.cons_append]⟩
  have hlength : rest.length + 1 = buf.length := by
    rw [← List.length_rotate buf head, hrest, List.length_cons]
  rw [window, window, List.rotate_mod, ← List.rotate_rotate, hrest, List.take_succ_cons,
    List.rotate_cons_succ, List.rotate_zero, List.take_append_of_le_length (by omega)]

theorem window_eq_pieces {buf : List α} {head : Nat} (hhead : head ≤ buf.length)
    (count : Nat) :
    window buf head count =
      (buf.drop head).take count ++
        (buf.take head).take (count - (buf.length - head)) := by
  rw [window, List.rotate_eq_drop_append_take hhead, List.take_append, List.length_drop]

end Slice

end SimonMQ.Go
