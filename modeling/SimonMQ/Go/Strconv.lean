import SimonMQ.Go.Binary

namespace SimonMQ.Go

/-! Base-ten integers as `strconv` and `fmt` read and write them. -/

def isDigit (byte : UInt8) : Bool := 0x30 ≤ byte && byte ≤ 0x39

def digitByte (value : Nat) : UInt8 := UInt8.ofNat (0x30 + value)

/-- The number a string of digit characters denotes. -/
def decimalValue (digits : Bytes) : Nat :=
  digits.foldl (fun value byte => value * 10 + (byte.toNat - 0x30)) 0

/-- `strconv.FormatUint(value, 10)`. -/
def formatUint (value : Nat) : Bytes :=
  if value < 10 then [digitByte value]
  else formatUint (value / 10) ++ [digitByte (value % 10)]

/-- `strconv.FormatInt(value, 10)`. -/
def formatInt (value : Int) : Bytes :=
  if value < 0 then 0x2D :: formatUint value.natAbs else formatUint value.natAbs

inductive NumError
  | syntaxError
  | rangeError
  deriving DecidableEq, Repr

/-- `strconv.ParseUint(text, 10, 64)`. -/
def parseUint (text : Bytes) : Except NumError Nat :=
  if text.isEmpty || !text.all isDigit then .error .syntaxError
  else if 2 ^ 64 ≤ decimalValue text then .error .rangeError
  else .ok (decimalValue text)

/-- `strconv.ParseInt(text, 10, 64)`. -/
def parseInt (text : Bytes) : Except NumError Int :=
  match text with
  | 0x2D :: digits =>
      match parseUint digits with
      | .error err => .error err
      | .ok value => if 2 ^ 63 < value then .error .rangeError else .ok (-value)
  | 0x2B :: digits =>
      match parseUint digits with
      | .error err => .error err
      | .ok value => if 2 ^ 63 ≤ value then .error .rangeError else .ok value
  | digits =>
      match parseUint digits with
      | .error err => .error err
      | .ok value => if 2 ^ 63 ≤ value then .error .rangeError else .ok value

theorem digits_of_parseUint {text : Bytes} {value : Nat} (hparse : parseUint text = .ok value) :
    text ≠ [] ∧ (∀ byte ∈ text, isDigit byte) ∧ decimalValue text = value := by
  unfold parseUint at hparse
  split at hparse
  next => contradiction
  next hdigits =>
      split at hparse
      next => contradiction
      next =>
          rw [Except.ok.injEq] at hparse
          simp only [Bool.or_eq_true, List.isEmpty_iff, Bool.not_eq_true', not_or,
            Bool.not_eq_false, List.all_eq_true] at hdigits
          exact ⟨hdigits.1, hdigits.2, hparse⟩

theorem digits_of_parseInt {text : Bytes} {value : Int} (hparse : parseInt text = .ok value)
    (hpos : 0 < value) :
    ∃ sign digits, text = sign ++ digits ∧ (sign = [] ∨ sign = lit "+") ∧
      (digits ≠ [] ∧ ∀ byte ∈ digits, isDigit byte) ∧ decimalValue digits = value := by
  have hunsigned : ∀ {digits : Bytes} {result : Int},
      (match parseUint digits with
        | .error err => .error err
        | .ok value =>
            if 2 ^ 63 ≤ value then .error .rangeError else .ok (value : Int)) =
          (.ok result : Except NumError Int) →
        (digits ≠ [] ∧ ∀ byte ∈ digits, isDigit byte) ∧ decimalValue digits = result := by
    intro digits result hresult
    split at hresult
    next => contradiction
    next found hfound =>
        obtain ⟨hne, hall, hvalue⟩ := digits_of_parseUint hfound
        split at hresult
        next => contradiction
        next =>
            rw [Except.ok.injEq] at hresult
            exact ⟨⟨hne, hall⟩, by rw [hvalue, hresult]⟩
  unfold parseInt at hparse
  split at hparse
  next digits =>
      split at hparse
      next => contradiction
      next found hfound =>
          split at hparse
          next => contradiction
          next =>
              rw [Except.ok.injEq] at hparse
              omega
  next digits => exact ⟨lit "+", digits, rfl, .inr rfl, hunsigned hparse⟩
  next => exact ⟨[], text, rfl, .inl rfl, hunsigned hparse⟩

theorem toNat_digitByte {value : Nat} (hvalue : value < 10) :
    (digitByte value).toNat = 0x30 + value := by
  simp only [digitByte, UInt8.toNat_ofNat']
  omega

theorem isDigit_digitByte {value : Nat} (hvalue : value < 10) :
    isDigit (digitByte value) := by
  simp only [isDigit, UInt8.le_iff_toNat_le, toNat_digitByte hvalue,
    UInt8.reduceToNat, Bool.and_eq_true, decide_eq_true_eq]
  omega

theorem decimalValue_append_digit (digits : Bytes) {value : Nat}
    (hvalue : value < 10) :
    decimalValue (digits ++ [digitByte value]) =
      decimalValue digits * 10 + value := by
  simp only [decimalValue, List.foldl_append, List.foldl_cons, List.foldl_nil,
    toNat_digitByte hvalue]
  omega

theorem decimalValue_formatUint (value : Nat) :
    decimalValue (formatUint value) = value := by
  fun_induction formatUint value with
  | case1 value hsmall =>
      simpa [decimalValue] using decimalValue_append_digit [] hsmall
  | case2 value hlarge ih =>
      rw [decimalValue_append_digit _ (Nat.mod_lt _ (by omega)), ih]
      omega

theorem all_isDigit_formatUint (value : Nat) :
    ∀ byte ∈ formatUint value, isDigit byte := by
  fun_induction formatUint value with
  | case1 value hsmall =>
      intro byte hmem
      rw [List.mem_singleton.mp hmem]
      exact isDigit_digitByte hsmall
  | case2 value hlarge ih =>
      intro byte hmem
      rcases List.mem_append.mp hmem with hhigh | hlow
      · exact ih byte hhigh
      · rw [List.mem_singleton.mp hlow]
        exact isDigit_digitByte (Nat.mod_lt _ (by omega))

theorem formatUint_ne_nil (value : Nat) : formatUint value ≠ [] := by
  fun_cases formatUint value <;> simp

theorem head_formatUint (value : Nat) :
    ∃ first rest, formatUint value = first :: rest ∧
      isDigit first ∧ (first = 0x30 → rest = []) := by
  fun_induction formatUint value with
  | case1 value hsmall =>
      exact ⟨digitByte value, [], rfl, isDigit_digitByte hsmall, fun _ => rfl⟩
  | case2 value hlarge ih =>
      obtain ⟨first, rest, heq, hdigit, hzero⟩ := ih
      refine ⟨first, rest ++ [digitByte (value % 10)], by rw [heq]; rfl, hdigit, ?_⟩
      intro hfirst
      have hsingle : formatUint (value / 10) = [0x30] := by
        rw [heq, hzero hfirst, hfirst]
      have hvalue := decimalValue_formatUint (value / 10)
      rw [hsingle] at hvalue
      have : decimalValue [0x30] = 0 := rfl
      omega

theorem parseUint_formatUint (value : Nat) (hvalue : value < 2 ^ 64) :
    parseUint (formatUint value) = .ok value := by
  have hall : (formatUint value).all isDigit :=
    List.all_eq_true.mpr (all_isDigit_formatUint value)
  have hnonempty : (formatUint value).isEmpty = false := by
    simp [formatUint_ne_nil value]
  rw [parseUint, decimalValue_formatUint, hall, hnonempty,
    if_neg (by decide), if_neg (Nat.not_le.mpr hvalue)]

/-! Fixed-width decimals, as `%020d` writes them: byte-wise order is numeric
order. -/

/-- The digits padded with zeros on the left to at least `width`. -/
def zeroPad (width : Nat) (digits : Bytes) : Bytes :=
  List.replicate (width - digits.length) 0x30 ++ digits

private theorem foldl_decimal (digits : Bytes) (value : Nat) :
    digits.foldl (fun value byte => value * 10 + (byte.toNat - 0x30)) value =
      value * 10 ^ digits.length + decimalValue digits := by
  induction digits generalizing value with
  | nil => simp [decimalValue]
  | cons digit digits ih =>
      rw [decimalValue, List.foldl_cons, List.foldl_cons, ih, ih (0 * 10 + _),
        List.length_cons, Nat.pow_succ']
      ring

theorem decimalValue_cons (digit : UInt8) (digits : Bytes) :
    decimalValue (digit :: digits) =
      (digit.toNat - 0x30) * 10 ^ digits.length + decimalValue digits := by
  rw [decimalValue, List.foldl_cons, foldl_decimal, Nat.zero_mul, Nat.zero_add]

theorem decimalValue_lt {digits : Bytes} (hdigits : ∀ byte ∈ digits, isDigit byte) :
    decimalValue digits < 10 ^ digits.length := by
  induction digits with
  | nil => simp [decimalValue]
  | cons digit digits ih =>
      have hdigit := hdigits digit List.mem_cons_self
      have hrest := ih fun byte hmem => hdigits byte (List.mem_cons_of_mem _ hmem)
      simp only [isDigit, UInt8.le_iff_toNat_le, UInt8.reduceToNat, Bool.and_eq_true,
        decide_eq_true_eq] at hdigit
      have hhigh : (digit.toNat - 0x30) * 10 ^ digits.length ≤ 9 * 10 ^ digits.length :=
        Nat.mul_le_mul_right _ (by omega)
      rw [decimalValue_cons, List.length_cons, Nat.pow_succ']
      omega

/-- Digit strings of one length order as the numbers they denote, also in front of
a common suffix. -/
theorem digits_lt_iff {left right : Bytes} (hlength : left.length = right.length)
    (hleft : ∀ byte ∈ left, isDigit byte) (hright : ∀ byte ∈ right, isDigit byte)
    (suffix : Bytes) :
    left ++ suffix < right ++ suffix ↔ decimalValue left < decimalValue right := by
  induction left generalizing right with
  | nil =>
      rw [List.length_nil, eq_comm, List.length_eq_zero_iff] at hlength
      subst hlength
      simp [decimalValue, List.lt_irrefl]
  | cons first left ih =>
      cases right with
      | nil => simp at hlength
      | cons second right =>
          have hlen : left.length = right.length := by simpa using hlength
          have hleftRest : ∀ byte ∈ left, isDigit byte :=
            fun byte hmem => hleft byte (List.mem_cons_of_mem _ hmem)
          have hrightRest : ∀ byte ∈ right, isDigit byte :=
            fun byte hmem => hright byte (List.mem_cons_of_mem _ hmem)
          have hfirst := hleft first List.mem_cons_self
          have hsecond := hright second List.mem_cons_self
          have hleftLow := decimalValue_lt hleftRest
          have hrightLow := decimalValue_lt hrightRest
          simp only [isDigit, UInt8.le_iff_toNat_le, UInt8.reduceToNat,
            Bool.and_eq_true, decide_eq_true_eq] at hfirst hsecond
          rw [List.cons_append, List.cons_append, List.cons_lt_cons_iff,
            ih hlen hleftRest hrightRest, decimalValue_cons, decimalValue_cons, hlen,
            UInt8.lt_iff_toNat_lt, ← UInt8.toNat_inj]
          rw [hlen] at hleftLow
          generalize 10 ^ right.length = unit at *
          rcases Nat.lt_trichotomy first.toNat second.toNat with hlt | heq | hgt
          · have hstep : (first.toNat - 0x30 + 1) * unit ≤ (second.toNat - 0x30) * unit :=
              Nat.mul_le_mul_right _ (by omega)
            rw [Nat.add_mul] at hstep
            exact iff_of_true (.inl hlt) (by omega)
          · rw [heq]
            constructor
            · rintro (habsurd | ⟨_, hlow⟩) <;> omega
            · intro hlow
              exact .inr ⟨rfl, by omega⟩
          · have hstep : (second.toNat - 0x30 + 1) * unit ≤ (first.toNat - 0x30) * unit :=
              Nat.mul_le_mul_right _ (by omega)
            rw [Nat.add_mul] at hstep
            exact iff_of_false (by omega) (by omega)

theorem length_formatUint_le {value width : Nat} (hwidth : 0 < width)
    (hvalue : value < 10 ^ width) : (formatUint value).length ≤ width := by
  induction width generalizing value with
  | zero => omega
  | succ width ih =>
      rw [formatUint]
      split_ifs with hsmall
      · simp
      · rw [Nat.pow_succ'] at hvalue
        have hpos : 0 < width := by
          rcases Nat.eq_zero_or_pos width with hzero | hpos
          · subst hzero
            omega
          · exact hpos
        have := ih hpos (Nat.div_lt_of_lt_mul hvalue)
        simp only [List.length_append, List.length_singleton]
        omega

theorem all_isDigit_zeroPad (width value : Nat) :
    ∀ byte ∈ zeroPad width (formatUint value), isDigit byte := by
  intro byte hmem
  rcases List.mem_append.mp hmem with hzero | hdigit
  · rw [(List.mem_replicate.mp hzero).2]
    decide
  · exact all_isDigit_formatUint value byte hdigit

theorem decimalValue_zeroPad (width value : Nat) :
    decimalValue (zeroPad width (formatUint value)) = value := by
  have hzeros : ∀ count, decimalValue (List.replicate count 0x30) = 0 := by
    intro count
    induction count with
    | zero => rfl
    | succ count ih => simp [List.replicate_succ, decimalValue_cons, ih]
  rw [decimalValue, zeroPad, List.foldl_append, ← decimalValue, hzeros, ← decimalValue,
    decimalValue_formatUint]

theorem length_zeroPad {width value : Nat} (hwidth : 0 < width)
    (hvalue : value < 10 ^ width) :
    (zeroPad width (formatUint value)).length = width := by
  have := length_formatUint_le hwidth hvalue
  rw [zeroPad, List.length_append, List.length_replicate]
  omega

theorem parseUint_zeroPad (width value : Nat) (hvalue : value < 2 ^ 64) :
    parseUint (zeroPad width (formatUint value)) = .ok value := by
  have hall : (zeroPad width (formatUint value)).all isDigit :=
    List.all_eq_true.mpr (all_isDigit_zeroPad width value)
  have hnonempty : (zeroPad width (formatUint value)).isEmpty = false := by
    simp [zeroPad, formatUint_ne_nil value]
  rw [parseUint, decimalValue_zeroPad, hall, hnonempty, if_neg (by decide),
    if_neg (Nat.not_le.mpr hvalue)]

theorem parseInt_formatInt (value : Int) (hlow : -2 ^ 63 ≤ value)
    (hhigh : value < 2 ^ 63) : parseInt (formatInt value) = .ok value := by
  unfold formatInt
  by_cases hnegative : value < 0
  · have hparse := parseUint_formatUint value.natAbs (by omega)
    have hrange : ¬ 2 ^ 63 < value.natAbs := by omega
    simp only [if_pos hnegative, parseInt, hparse, if_neg hrange, Except.ok.injEq]
    omega
  · have hparse := parseUint_formatUint value.natAbs (by omega)
    have hrange : ¬ 2 ^ 63 ≤ value.natAbs := by omega
    obtain ⟨first, rest, heq, hdigit, _⟩ := head_formatUint value.natAbs
    have hunsigned : first ≠ 0x2D ∧ first ≠ 0x2B := by
      constructor <;> rintro rfl <;> exact absurd hdigit (by decide)
    rw [heq] at hparse
    simp only [if_neg hnegative, heq]
    unfold parseInt
    split
    · rename_i hminus
      exact absurd (List.cons.inj hminus).1 hunsigned.1
    · rename_i hplus
      exact absurd (List.cons.inj hplus).1 hunsigned.2
    · simp only [hparse, if_neg hrange, Except.ok.injEq]
      omega

end SimonMQ.Go
