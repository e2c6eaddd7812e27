import Mathlib.Data.Nat.Basic
import Mathlib.Tactic.Ring

namespace SimonMQ.Go

/-! Byte strings and the little-endian fields of `encoding/binary`.  A Go
`string` and a `[]byte` are both finite sequences of arbitrary bytes. -/

abbrev Bytes := List UInt8

abbrev GoString := List UInt8

instance : LawfulBEq GoString := inferInstanceAs (LawfulBEq (List UInt8))

/-- A string literal of the source, as its UTF-8 bytes. -/
def lit (text : String) : GoString := text.toUTF8.data.toList

/-- The `width` low-order bytes of a number, least significant first. -/
def leBytes : Nat → Nat → Bytes
  | 0, _ => []
  | width + 1, value => UInt8.ofNat value :: leBytes width (value / 256)

/-- The number whose little-endian digits are the given bytes. -/
def leNat : Bytes → Nat
  | [] => 0
  | byte :: rest => byte.toNat + 256 * leNat rest

@[simp] theorem length_leBytes (width value : Nat) :
    (leBytes width value).length = width := by
  induction width generalizing value with
  | zero => rfl
  | succ width ih => simp [leBytes, ih]

theorem leNat_leBytes (width value : Nat) :
    leNat (leBytes width value) = value % 256 ^ width := by
  induction width generalizing value with
  | zero => simp [leBytes, leNat, Nat.mod_one]
  | succ width ih =>
      have hlow : (UInt8.ofNat value).toNat = value % 256 := by
        simp [UInt8.toNat_ofNat']
      simp only [leBytes, leNat, ih, hlow]
      rw [Nat.pow_succ', Nat.mod_mul]

theorem leNat_lt (bytes : Bytes) : leNat bytes < 256 ^ bytes.length := by
  induction bytes with
  | nil => simp [leNat]
  | cons byte rest ih =>
      have hbyte : byte.toNat < 256 := byte.toNat_lt
      simp only [leNat, List.length_cons, Nat.pow_succ']
      omega

theorem leBytes_leNat (bytes : Bytes) :
    leBytes bytes.length (leNat bytes) = bytes := by
  induction bytes with
  | nil => rfl
  | cons byte rest ih =>
      have hbyte : byte.toNat < 256 := byte.toNat_lt
      have hlow : UInt8.ofNat (byte.toNat + 256 * leNat rest) = byte := by
        apply UInt8.toNat_inj.mp
        simp only [UInt8.toNat_ofNat']
        omega
      have hhigh : (byte.toNat + 256 * leNat rest) / 256 = leNat rest := by
        omega
      simp only [List.length_cons, leBytes, leNat, hlow, hhigh, ih]

def putUint32 (value : UInt32) : Bytes := leBytes 4 value.toNat

def putUint64 (value : UInt64) : Bytes := leBytes 8 value.toNat

def uint32 (bytes : Bytes) : UInt32 := UInt32.ofNat (leNat (bytes.take 4))

def uint64 (bytes : Bytes) : UInt64 := UInt64.ofNat (leNat (bytes.take 8))

theorem uint32_drop_take {start cut : Nat} (hcut : start + 4 ≤ cut) (bytes : Bytes) :
    uint32 ((bytes.take cut).drop start) = uint32 (bytes.drop start) := by
  rw [List.drop_take, uint32, List.take_take, Nat.min_eq_left (by omega), ← uint32]

@[simp] theorem length_putUint32 (value : UInt32) :
    (putUint32 value).length = 4 := by
  simp [putUint32]

@[simp] theorem length_putUint64 (value : UInt64) :
    (putUint64 value).length = 8 := by
  simp [putUint64]

@[simp] theorem uint32_putUint32 (value : UInt32) (rest : Bytes) :
    uint32 (putUint32 value ++ rest) = value := by
  have hvalue : value.toNat < 2 ^ 32 := value.toNat_lt
  have htake : (putUint32 value ++ rest).take 4 = putUint32 value :=
    List.take_left' (length_putUint32 value)
  apply UInt32.toNat_inj.mp
  rw [uint32, htake, putUint32, leNat_leBytes, UInt32.toNat_ofNat']
  omega

@[simp] theorem uint64_putUint64 (value : UInt64) (rest : Bytes) :
    uint64 (putUint64 value ++ rest) = value := by
  have hvalue : value.toNat < 2 ^ 64 := value.toNat_lt
  have htake : (putUint64 value ++ rest).take 8 = putUint64 value :=
    List.take_left' (length_putUint64 value)
  apply UInt64.toNat_inj.mp
  rw [uint64, htake, putUint64, leNat_leBytes, UInt64.toNat_ofNat']
  omega

theorem putUint32_uint32 {bytes : Bytes} (hlength : 4 ≤ bytes.length) :
    putUint32 (uint32 bytes) = bytes.take 4 := by
  have htake : (bytes.take 4).length = 4 := by
    rw [List.length_take]
    omega
  have hbound := leNat_lt (bytes.take 4)
  rw [htake] at hbound
  have hdigits := leBytes_leNat (bytes.take 4)
  rw [htake] at hdigits
  rw [putUint32, uint32, UInt32.toNat_ofNat_of_lt' hbound, hdigits]

theorem putUint64_uint64 {bytes : Bytes} (hlength : 8 ≤ bytes.length) :
    putUint64 (uint64 bytes) = bytes.take 8 := by
  have htake : (bytes.take 8).length = 8 := by
    rw [List.length_take]
    omega
  have hbound := leNat_lt (bytes.take 8)
  rw [htake] at hbound
  have hdigits := leBytes_leNat (bytes.take 8)
  rw [htake] at hdigits
  rw [putUint64, uint64, UInt64.toNat_ofNat_of_lt' hbound, hdigits]

end SimonMQ.Go
