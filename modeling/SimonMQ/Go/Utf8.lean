import Mathlib.Tactic.SplitIfs
import SimonMQ.Go.Binary

namespace SimonMQ.Go.Utf8

/-! `unicode/utf8`: how Go splits a byte string into runes, and the coercion of
ill-formed bytes to U+FFFD that `encoding/json` applies in both directions. -/

def isContinuation (byte : UInt8) : Bool := 0x80 ≤ byte && byte ≤ 0xBF

/-- The accept range of the second byte, which excludes overlong forms,
surrogates and values above U+10FFFF. -/
def acceptsSecond (first second : UInt8) : Bool :=
  if first = 0xE0 then 0xA0 ≤ second && second ≤ 0xBF
  else if first = 0xED then 0x80 ≤ second && second ≤ 0x9F
  else if first = 0xF0 then 0x90 ≤ second && second ≤ 0xBF
  else if first = 0xF4 then 0x80 ≤ second && second ≤ 0x8F
  else isContinuation second

/-- The width of the well-formed rune at the head of a string; zero when the
head is ill-formed, where `utf8.DecodeRune` reports `(RuneError, 1)`. -/
def runeSize : Bytes → Nat
  | [] => 0
  | first :: tail =>
      if first < 0x80 then 1
      else if 0xC2 ≤ first ∧ first ≤ 0xDF then
        match tail with
        | second :: _ => if isContinuation second then 2 else 0
        | [] => 0
      else if 0xE0 ≤ first ∧ first ≤ 0xEF then
        match tail with
        | second :: third :: _ =>
            if acceptsSecond first second && isContinuation third then 3 else 0
        | _ => 0
      else if 0xF0 ≤ first ∧ first ≤ 0xF4 then
        match tail with
        | second :: third :: fourth :: _ =>
            if acceptsSecond first second && isContinuation third &&
              isContinuation fourth then 4 else 0
        | _ => 0
      else 0

/-- The encoding of exactly one Unicode scalar value. -/
inductive Rune : Bytes → Prop
  | ascii {first : UInt8} (hfirst : first < 0x80) : Rune [first]
  | two {first second : UInt8}
      (hfirst : 0xC2 ≤ first ∧ first ≤ 0xDF)
      (hsecond : isContinuation second) : Rune [first, second]
  | three {first second third : UInt8}
      (hfirst : 0xE0 ≤ first ∧ first ≤ 0xEF)
      (hsecond : acceptsSecond first second)
      (hthird : isContinuation third) : Rune [first, second, third]
  | four {first second third fourth : UInt8}
      (hfirst : 0xF0 ≤ first ∧ first ≤ 0xF4)
      (hsecond : acceptsSecond first second)
      (hthird : isContinuation third) (hfourth : isContinuation fourth) :
      Rune [first, second, third, fourth]

theorem Rune.length_pos {chunk : Bytes} (hrune : Rune chunk) :
    0 < chunk.length := by
  cases hrune <;> simp

theorem Rune.runeSize_append {chunk : Bytes} (hrune : Rune chunk)
    (rest : Bytes) : runeSize (chunk ++ rest) = chunk.length := by
  cases hrune with
  | ascii hfirst => simp [runeSize, hfirst]
  | @two first second hfirst hsecond =>
      have hwide : ¬ first < 0x80 := by
        simp only [UInt8.le_iff_toNat_le, UInt8.lt_iff_toNat_lt] at *
        simp at *; omega
      simp [runeSize, hwide, hfirst, hsecond]
  | @three first second third hfirst hsecond hthird =>
      have hwide : ¬ first < 0x80 ∧ ¬ (0xC2 ≤ first ∧ first ≤ 0xDF) := by
        simp only [UInt8.le_iff_toNat_le, UInt8.lt_iff_toNat_lt] at *
        simp at *; omega
      simp [runeSize, hwide.1, hwide.2, hfirst, hsecond, hthird]
  | @four first second third fourth hfirst hsecond hthird hfourth =>
      have hwide : ¬ first < 0x80 ∧ ¬ (0xC2 ≤ first ∧ first ≤ 0xDF) ∧
          ¬ (0xE0 ≤ first ∧ first ≤ 0xEF) := by
        simp only [UInt8.le_iff_toNat_le, UInt8.lt_iff_toNat_lt] at *
        simp at *; omega
      simp [runeSize, hwide.1, hwide.2.1, hwide.2.2, hfirst, hsecond, hthird,
        hfourth]

theorem rune_take_runeSize {bytes : Bytes} (hsize : runeSize bytes ≠ 0) :
    Rune (bytes.take (runeSize bytes)) := by
  unfold runeSize at hsize ⊢
  split at hsize
  · contradiction
  · rename_i first tail
    by_cases hascii : first < 0x80
    · simp only [if_pos hascii, List.take_succ_cons, List.take_zero]
      exact .ascii hascii
    simp only [if_neg hascii] at hsize ⊢
    by_cases htwo : 0xC2 ≤ first ∧ first ≤ 0xDF
    · simp only [if_pos htwo] at hsize ⊢
      split at hsize
      · split at hsize
        · rename_i hsecond
          simpa [hsecond] using Rune.two htwo hsecond
        · contradiction
      · contradiction
    simp only [if_neg htwo] at hsize ⊢
    by_cases hthree : 0xE0 ≤ first ∧ first ≤ 0xEF
    · simp only [if_pos hthree] at hsize ⊢
      split at hsize
      · split at hsize
        · rename_i haccepts
          simp only [Bool.and_eq_true] at haccepts
          simpa [haccepts] using Rune.three hthree haccepts.1 haccepts.2
        · contradiction
      · contradiction
    simp only [if_neg hthree] at hsize ⊢
    by_cases hfour : 0xF0 ≤ first ∧ first ≤ 0xF4
    · simp only [if_pos hfour] at hsize ⊢
      split at hsize
      · split at hsize
        · rename_i haccepts
          simp only [Bool.and_eq_true] at haccepts
          simpa [haccepts] using
            Rune.four hfour haccepts.1.1 haccepts.1.2 haccepts.2
        · contradiction
      · contradiction
    · simp [if_neg hfour] at hsize

/-- The runes of a string in the order `for range` visits them.  An ill-formed
byte is a rune of its own, recorded as `none`. -/
def runes : Bytes → List (Option Bytes)
  | [] => []
  | first :: tail =>
      if runeSize (first :: tail) = 0 then none :: runes tail
      else
        some ((first :: tail).take (runeSize (first :: tail))) ::
          runes ((first :: tail).drop (runeSize (first :: tail)))
termination_by bytes => bytes.length
decreasing_by
  · simp
  · simp only [List.length_drop, List.length_cons]; omega

theorem rune_of_mem_runes {bytes chunk : Bytes}
    (hmem : some chunk ∈ runes bytes) : Rune chunk := by
  fun_induction runes bytes with
  | case1 => simp at hmem
  | case2 first tail hsize ih =>
      rw [List.mem_cons] at hmem
      exact ih (hmem.resolve_left (by simp))
  | case3 first tail hsize ih =>
      rcases List.mem_cons.mp hmem with heq | htail
      · rw [Option.some.inj heq]
        exact rune_take_runeSize hsize
      · exact ih htail

theorem Rune.runes_append {chunk : Bytes} (hrune : Rune chunk)
    (rest : Bytes) : runes (chunk ++ rest) = some chunk :: runes rest := by
  have hsize := hrune.runeSize_append rest
  have hpos := hrune.length_pos
  cases chunk with
  | nil => simp at hpos
  | cons first tail =>
      rw [List.cons_append] at hsize ⊢
      rw [runes, if_neg (by omega), hsize, ← List.cons_append,
        List.take_left, List.drop_left]

/-- U+FFFD. -/
def runeError : Bytes := [0xEF, 0xBF, 0xBD]

theorem rune_runeError : Rune runeError :=
  .three (by decide) (by decide) (by decide)

/-- Every ill-formed byte replaced by U+FFFD. -/
def toValid (bytes : Bytes) : Bytes :=
  (runes bytes).flatMap fun chunk => chunk.getD runeError

/-- `utf8.Valid`. -/
def Valid (bytes : Bytes) : Prop := none ∉ runes bytes

instance (bytes : Bytes) : Decidable (Valid bytes) :=
  inferInstanceAs (Decidable (none ∉ runes bytes))

@[simp] theorem valid_nil : Valid [] := by
  simp [Valid, runes]

theorem Rune.valid {chunk : Bytes} (hrune : Rune chunk) : Valid chunk := by
  have hrunes := hrune.runes_append []
  rw [List.append_nil] at hrunes
  simp [Valid, hrunes, runes]

theorem flatten_runes_of_valid {bytes : Bytes} (hvalid : Valid bytes) :
    toValid bytes = bytes := by
  unfold Valid at hvalid
  unfold toValid
  fun_induction runes bytes with
  | case1 => rfl
  | case2 first tail hsize ih => simp at hvalid
  | case3 first tail hsize ih =>
      have htail := ih fun hmem => hvalid (List.mem_cons_of_mem _ hmem)
      rw [List.flatMap_cons, htail]
      exact List.take_append_drop _ _

theorem runes_flatMap {chunks : List Bytes} (hrunes : ∀ chunk ∈ chunks, Rune chunk)
    (rest : Bytes) :
    runes (chunks.flatten ++ rest) = chunks.map some ++ runes rest := by
  induction chunks with
  | nil => rfl
  | cons chunk chunks ih =>
      have hhead := hrunes chunk List.mem_cons_self
      have htail := ih fun other hmem => hrunes other (List.mem_cons_of_mem _ hmem)
      rw [List.flatten_cons, List.append_assoc, hhead.runes_append, htail]
      rfl

theorem toValid_eq_flatten (bytes : Bytes) :
    ∃ chunks : List Bytes,
      toValid bytes = chunks.flatten ∧ ∀ chunk ∈ chunks, Rune chunk := by
  refine ⟨(runes bytes).map fun chunk => chunk.getD runeError, ?_, ?_⟩
  · simp [toValid, List.flatMap]
  · intro chunk hmem
    obtain ⟨source, hsource, rfl⟩ := List.mem_map.mp hmem
    cases source with
    | none => exact rune_runeError
    | some found => exact rune_of_mem_runes hsource

theorem valid_flatten {chunks : List Bytes}
    (hrunes : ∀ chunk ∈ chunks, Rune chunk) : Valid chunks.flatten := by
  have hsplit := runes_flatMap hrunes []
  rw [List.append_nil] at hsplit
  simp [Valid, hsplit, runes]

theorem valid_toValid (bytes : Bytes) : Valid (toValid bytes) := by
  obtain ⟨chunks, heq, hrunes⟩ := toValid_eq_flatten bytes
  rw [heq]
  exact valid_flatten hrunes

@[simp] theorem toValid_nil : toValid [] = [] := by
  simp [toValid, runes]

@[simp] theorem isEmpty_toValid (bytes : Bytes) :
    (toValid bytes).isEmpty = bytes.isEmpty := by
  cases bytes with
  | nil => simp
  | cons first tail =>
      obtain ⟨size, hsize⟩ : ∃ size, runeSize (first :: tail) = size := ⟨_, rfl⟩
      rw [toValid, runes, hsize]
      cases size with
      | zero => simp [runeError]
      | succ size => simp

theorem Valid.append {left right : Bytes} (hleft : Valid left)
    (hright : Valid right) : Valid (left ++ right) := by
  obtain ⟨leftChunks, hleftEq, hleftRunes⟩ := toValid_eq_flatten left
  obtain ⟨rightChunks, hrightEq, hrightRunes⟩ := toValid_eq_flatten right
  rw [flatten_runes_of_valid hleft] at hleftEq
  rw [flatten_runes_of_valid hright] at hrightEq
  rw [hleftEq, hrightEq, ← List.flatten_append]
  apply valid_flatten
  intro chunk hmem
  exact (List.mem_append.mp hmem).elim (hleftRunes chunk) (hrightRunes chunk)

theorem valid_of_ascii {bytes : Bytes} (hascii : ∀ byte ∈ bytes, byte < 0x80) :
    Valid bytes := by
  have hchunks : bytes = (bytes.map fun byte => [byte]).flatten := by
    rw [← List.flatMap_def, List.flatMap_singleton']
  rw [hchunks]
  apply valid_flatten
  intro chunk hmem
  obtain ⟨byte, hbyte, rfl⟩ := List.mem_map.mp hmem
  exact .ascii (hascii byte hbyte)

/-- `utf8.EncodeRune`: surrogates and out-of-range values encode U+FFFD. -/
def encodeRune (value : Nat) : Bytes :=
  if value < 0x80 then [UInt8.ofNat value]
  else if value < 0x800 then
    [UInt8.ofNat (0xC0 + value / 64), UInt8.ofNat (0x80 + value % 64)]
  else if (0xD800 ≤ value ∧ value < 0xE000) ∨ 0x10FFFF < value then runeError
  else if value < 0x10000 then
    [UInt8.ofNat (0xE0 + value / 4096), UInt8.ofNat (0x80 + value / 64 % 64),
      UInt8.ofNat (0x80 + value % 64)]
  else
    [UInt8.ofNat (0xF0 + value / 262144),
      UInt8.ofNat (0x80 + value / 4096 % 64),
      UInt8.ofNat (0x80 + value / 64 % 64), UInt8.ofNat (0x80 + value % 64)]

theorem isContinuation_ofNat (value : Nat) :
    isContinuation (UInt8.ofNat (0x80 + value % 64)) := by
  simp only [isContinuation, UInt8.le_iff_toNat_le, UInt8.toNat_ofNat',
    Bool.and_eq_true, decide_eq_true_eq]
  simp only [UInt8.reduceToNat]
  omega

theorem rune_encodeRune (value : Nat) : Rune (encodeRune value) := by
  unfold encodeRune
  by_cases hascii : value < 0x80
  · rw [if_pos hascii]
    apply Rune.ascii
    simp only [UInt8.lt_iff_toNat_lt, UInt8.toNat_ofNat', UInt8.reduceToNat]
    omega
  rw [if_neg hascii]
  by_cases htwo : value < 0x800
  · rw [if_pos htwo]
    refine Rune.two ?_ (isContinuation_ofNat _)
    simp only [UInt8.le_iff_toNat_le, UInt8.toNat_ofNat', UInt8.reduceToNat]
    omega
  rw [if_neg htwo]
  by_cases hbad : (0xD800 ≤ value ∧ value < 0xE000) ∨ 0x10FFFF < value
  · rw [if_pos hbad]
    exact rune_runeError
  rw [if_neg hbad]
  by_cases hthree : value < 0x10000
  · rw [if_pos hthree]
    refine Rune.three ?_ ?_ (isContinuation_ofNat _)
    · simp only [UInt8.le_iff_toNat_le, UInt8.toNat_ofNat', UInt8.reduceToNat]
      omega
    · simp only [acceptsSecond, isContinuation, ← UInt8.toNat_inj,
        UInt8.le_iff_toNat_le, UInt8.toNat_ofNat', UInt8.reduceToNat]
      split_ifs <;> simp only [Bool.and_eq_true, decide_eq_true_eq] <;> omega
  · rw [if_neg hthree]
    refine Rune.four ?_ ?_ (isContinuation_ofNat _) (isContinuation_ofNat _)
    · simp only [UInt8.le_iff_toNat_le, UInt8.toNat_ofNat', UInt8.reduceToNat]
      omega
    · simp only [acceptsSecond, isContinuation, ← UInt8.toNat_inj,
        UInt8.le_iff_toNat_le, UInt8.toNat_ofNat', UInt8.reduceToNat]
      split_ifs <;> simp only [Bool.and_eq_true, decide_eq_true_eq] <;> omega

end SimonMQ.Go.Utf8
