import SimonMQ.Go.Directory
import SimonMQ.Go.Strconv
import SimonMQ.Go.Strings

namespace SimonMQ.Durable

open SimonMQ.Go
open SimonMQ.Go.Strings

/-! Segment sizes as a user writes them. -/

inductive SizeError
  | invalid (s : GoString)
  | notPositive (s : GoString)
  deriving DecidableEq, Repr

/-- The text of an error, where `quote` is the verb `%q`. -/
def SizeError.text (quote : GoString → GoString) : SizeError → GoString
  | invalid s =>
      lit "invalid size " ++ quote s ++ lit " (want e.g. 1MB, 512KB, or a byte count)"
  | notPositive s => lit "size " ++ quote s ++ lit " must be positive"

/-- The switch on the suffix: the multiplier, and the text without its unit. -/
def splitUnit (t : GoString) : Nat × GoString :=
  if hasSuffix t (lit "GB") then (2 ^ 30, trimSuffix t (lit "GB"))
  else if hasSuffix t (lit "MB") then (2 ^ 20, trimSuffix t (lit "MB"))
  else if hasSuffix t (lit "KB") then (2 ^ 10, trimSuffix t (lit "KB"))
  else if hasSuffix t (lit "B") then (1, trimSuffix t (lit "B"))
  else (1, t)

/-- `ParseSize`.  The product wraps as an int64. -/
def parseSize (table : CaseTable) (s : GoString) : Except SizeError Int :=
  let (mult, t) := splitUnit (toUpper table (trimSpace s))
  match parseInt (trimSpace t) with
  | .error _ => .error (.invalid s)
  | .ok n => if n ≤ 0 then .error (.notPositive s) else .ok ((n * mult).bmod (2 ^ 64))

/-- The units and their 1024-based values.  No unit counts bytes. -/
def units : List (GoString × Nat) :=
  [(lit "GB", 2 ^ 30), (lit "MB", 2 ^ 20), (lit "KB", 2 ^ 10), (lit "B", 1), ([], 1)]

/-- A size as it is written: a decimal number with an optional plus sign and a unit in
upper or lower case, with white space around each. -/
inductive Written (number unit : Nat) : GoString → Prop
  | intro {before sign digits gap name after : Bytes}
      (hbefore : Blank before) (hsign : sign = [] ∨ sign = lit "+")
      (hdigits : digits ≠ [] ∧ ∀ byte ∈ digits, isDigit byte)
      (hnumber : decimalValue digits = number)
      (hgap : Blank gap) (hunit : (name.map asciiUpper, unit) ∈ units)
      (hafter : Blank after) :
      Written number unit (before ++ (sign ++ digits ++ (gap ++ name)) ++ after)

theorem splitUnit_spec (t : GoString) :
    ∃ name, (name, (splitUnit t).1) ∈ units ∧ t = (splitUnit t).2 ++ name := by
  unfold splitUnit
  split_ifs with hgb hmb hkb hb
  · exact ⟨lit "GB", by simp [units], (append_trimSuffix hgb).symm⟩
  · exact ⟨lit "MB", by simp [units], (append_trimSuffix hmb).symm⟩
  · exact ⟨lit "KB", by simp [units], (append_trimSuffix hkb).symm⟩
  · exact ⟨lit "B", by simp [units], (append_trimSuffix hb).symm⟩
  · exact ⟨[], by simp [units], (List.append_nil t).symm⟩

/-! The digits of a written size are its number and the letters its unit. -/

def isLetter (byte : UInt8) : Bool :=
  0x41 ≤ (asciiUpper byte).toNat && (asciiUpper byte).toNat ≤ 0x5A

theorem blank_plain {bytes : Bytes} (hblank : Blank bytes) :
    ∀ byte ∈ bytes, isDigit byte = false ∧ isLetter byte = false := by
  have hspaces : (spaceRunes.all fun chunk =>
      chunk.all fun byte => !isDigit byte && !isLetter byte) = true := by
    decide +kernel
  obtain ⟨chunks, hchunks, rfl⟩ := hblank
  intro byte hmem
  obtain ⟨chunk, hchunk, hbyte⟩ := List.mem_flatten.mp hmem
  have hplain := List.all_eq_true.mp
    (List.all_eq_true.mp hspaces chunk (hchunks chunk hchunk)) byte hbyte
  simpa using hplain

theorem sign_plain {sign : Bytes} (hsign : sign = [] ∨ sign = lit "+") :
    ∀ byte ∈ sign, isDigit byte = false ∧ isLetter byte = false := by
  rcases hsign with rfl | rfl
  · simp
  · decide +kernel

theorem toNat_of_isDigit {byte : UInt8} (hdigit : isDigit byte) :
    0x30 ≤ byte.toNat ∧ byte.toNat ≤ 0x39 := by
  simpa [isDigit, UInt8.le_iff_toNat_le] using hdigit

theorem not_isLetter_of_isDigit {byte : UInt8} (hdigit : isDigit byte) :
    isLetter byte = false := by
  have hrange := toNat_of_isDigit hdigit
  rw [isLetter, asciiUpper_of_lt (by omega), Bool.and_eq_false_iff, decide_eq_false_iff_not]
  omega

theorem names_are_letters :
    ∀ entry ∈ units, ∀ byte ∈ entry.1, 0x41 ≤ byte.toNat ∧ byte.toNat ≤ 0x5A ∧
      byte ≠ 0x49 ∧ byte ≠ 0x53 := by
  decide +kernel

theorem isLetter_of_unit {name : Bytes} {unit : Nat}
    (hunit : (name.map asciiUpper, unit) ∈ units) : ∀ byte ∈ name, isLetter byte := by
  intro byte hmem
  obtain ⟨hlow, hhigh, _⟩ :=
    names_are_letters _ hunit (asciiUpper byte) (List.mem_map_of_mem hmem)
  rw [isLetter, decide_eq_true hlow, decide_eq_true hhigh]
  rfl

theorem filter_eq_nil_of_false {p : UInt8 → Bool} {bytes : Bytes}
    (hbytes : ∀ byte ∈ bytes, p byte = false) : bytes.filter p = [] :=
  List.filter_eq_nil_iff.mpr fun byte hmem => Bool.not_eq_true _ ▸ hbytes byte hmem

theorem Written.filter_isDigit {number unit : Nat} {s : GoString}
    (hwritten : Written number unit s) : decimalValue (s.filter isDigit) = number := by
  obtain ⟨hbefore, hsign, hdigits, hnumber, hgap, hunit, hafter⟩ := hwritten
  have hname : ∀ byte, isLetter byte → isDigit byte = false := by
    intro byte hletter
    by_contra hdigit
    rw [not_isLetter_of_isDigit (Bool.not_eq_false _ ▸ hdigit)] at hletter
    contradiction
  simp only [List.filter_append]
  rw [filter_eq_nil_of_false fun byte hmem => (blank_plain hbefore byte hmem).1,
    filter_eq_nil_of_false fun byte hmem => (sign_plain hsign byte hmem).1,
    filter_eq_nil_of_false fun byte hmem => (blank_plain hgap byte hmem).1,
    filter_eq_nil_of_false fun byte hmem => hname byte (isLetter_of_unit hunit byte hmem),
    filter_eq_nil_of_false fun byte hmem => (blank_plain hafter byte hmem).1,
    List.filter_eq_self.mpr hdigits.2]
  simpa using hnumber

theorem Written.filter_isLetter {number unit : Nat} {s : GoString}
    (hwritten : Written number unit s) :
    ((s.filter isLetter).map asciiUpper, unit) ∈ units := by
  obtain ⟨hbefore, hsign, hdigits, hnumber, hgap, hunit, hafter⟩ := hwritten
  simp only [List.filter_append]
  rw [filter_eq_nil_of_false fun byte hmem => (blank_plain hbefore byte hmem).2,
    filter_eq_nil_of_false fun byte hmem => (sign_plain hsign byte hmem).2,
    filter_eq_nil_of_false fun byte hmem => not_isLetter_of_isDigit (hdigits.2 byte hmem),
    filter_eq_nil_of_false fun byte hmem => (blank_plain hgap byte hmem).2,
    filter_eq_nil_of_false fun byte hmem => (blank_plain hafter byte hmem).2,
    List.filter_eq_self.mpr (isLetter_of_unit hunit)]
  simpa using hunit

theorem Written.unique {number unit other otherUnit : Nat} {s : GoString}
    (hwritten : Written number unit s) (hother : Written other otherUnit s) :
    other = number ∧ otherUnit = unit := by
  have hunits : ∀ left ∈ units, ∀ right ∈ units, left.1 = right.1 → left.2 = right.2 := by
    decide +kernel
  constructor
  · rw [← hwritten.filter_isDigit, ← hother.filter_isDigit]
  · exact hunits _ hother.filter_isLetter _ hwritten.filter_isLetter rfl

theorem exists_of_toUpper_size {table : CaseTable} {bytes blank text gap name : Bytes}
    (hblank : Blank blank) (htext : ∀ byte ∈ text, byte.toNat < 0x41) (hgap : Blank gap)
    (hname : ∀ byte ∈ name,
      0x41 ≤ byte.toNat ∧ byte.toNat ≤ 0x5A ∧ byte ≠ 0x49 ∧ byte ≠ 0x53)
    (hupper : toUpper table bytes = blank ++ text ++ gap ++ name) :
    ∃ spelling, spelling.map asciiUpper = name ∧
      bytes = blank ++ (text ++ (gap ++ spelling)) := by
  have hascii : ∀ {byte : UInt8}, byte.toNat ≤ 0x5A → byte < 0x80 := by
    intro byte hbyte
    simp only [UInt8.lt_iff_toNat_lt, UInt8.reduceToNat]
    omega
  have htextAscii : ∀ byte ∈ text, byte < 0x80 ∧ byte ≠ 0x49 ∧ byte ≠ 0x53 := by
    intro byte hmem
    have hbyte := htext byte hmem
    refine ⟨hascii (by omega), ?_, ?_⟩
    · rintro rfl
      simp at hbyte
    · rintro rfl
      simp at hbyte
  have hnameAscii : ∀ byte ∈ name, byte < 0x80 ∧ byte ≠ 0x49 ∧ byte ≠ 0x53 :=
    fun byte hmem => ⟨hascii (hname byte hmem).2.1, (hname byte hmem).2.2⟩
  rw [List.append_assoc, List.append_assoc] at hupper
  obtain ⟨afterBlank, rfl, hafterBlank⟩ := exists_of_toUpper_blank hblank hupper
  obtain ⟨front, afterText, rfl, hfront, hafterText⟩ :=
    exists_of_toUpper_ascii htextAscii hafterBlank
  obtain ⟨afterGap, rfl, hafterGap⟩ := exists_of_toUpper_blank hgap hafterText
  rw [← List.append_nil name] at hafterGap
  obtain ⟨spelling, rest, rfl, hspelling, hrest⟩ :=
    exists_of_toUpper_ascii hnameAscii hafterGap
  have hsame : front = text := by
    have hfixed : front.map asciiUpper = front.map id := by
      apply List.map_congr_left
      intro byte hmem
      apply eq_of_asciiUpper_not_letter
      apply htext
      rw [← hfront]
      exact List.mem_map_of_mem hmem
    rw [← hfront, hfixed, List.map_id]
  refine ⟨spelling, hspelling, ?_⟩
  rw [eq_nil_of_toUpper_eq_nil hrest, List.append_nil, hsame]

theorem written_of_parseInt {table : CaseTable} {s t : GoString} {unit : Nat} {value : Int}
    (hsplit : splitUnit (toUpper table (trimSpace s)) = (unit, t))
    (hparse : parseInt (trimSpace t) = .ok value) (hpos : 0 < value) :
    ∃ number : Nat, Written number unit s ∧ value = number := by
  obtain ⟨before, after, hbefore, hafter, hs⟩ := exists_trimSpace s
  obtain ⟨name, hunit, hupper⟩ := splitUnit_spec (toUpper table (trimSpace s))
  obtain ⟨blank, gap, hblank, hgap, ht⟩ := exists_trimSpace t
  obtain ⟨sign, digits, htext, hsign, hdigits, hvalue⟩ := digits_of_parseInt hparse hpos
  have hplain : ∀ byte ∈ sign ++ digits, byte.toNat < 0x41 := by
    intro byte hmem
    rcases List.mem_append.mp hmem with hmem | hmem
    · rcases hsign with rfl | rfl
      · contradiction
      · rw [List.mem_singleton.mp hmem]
        decide
    · have hrange := toNat_of_isDigit (hdigits.2 byte hmem)
      omega
  rw [hsplit] at hunit hupper
  rw [ht, htext] at hupper
  obtain ⟨spelling, rfl, htrimmed⟩ :=
    exists_of_toUpper_size hblank hplain hgap (names_are_letters _ hunit) hupper
  have heq : s = before ++ blank ++ (sign ++ digits ++ (gap ++ spelling)) ++ after := by
    rw [hs, htrimmed]
    simp only [List.append_assoc]
  refine ⟨decimalValue digits, ?_, hvalue.symm⟩
  rw [heq]
  exact .intro (hbefore.append hblank) hsign hdigits rfl hgap hunit hafter

theorem parseSize_eq_ok {table : CaseTable} {s : GoString} {v : Int}
    (hparse : parseSize table s = .ok v) :
    ∃ number unit, Written number unit s ∧ 0 < number ∧
      v = ((number * unit : Nat) : Int).bmod (2 ^ 64) := by
  unfold parseSize at hparse
  rcases hsplit : splitUnit (toUpper table (trimSpace s)) with ⟨unit, t⟩
  rw [hsplit] at hparse
  dsimp only at hparse
  split at hparse
  next => contradiction
  next n hn =>
      split at hparse
      next => contradiction
      next hpositive =>
          rw [Except.ok.injEq] at hparse
          obtain ⟨number, hwritten, rfl⟩ := written_of_parseInt hsplit hn (by omega)
          refine ⟨number, unit, hwritten, by omega, ?_⟩
          rw [← hparse, Nat.cast_mul]

theorem unit_pos {number unit : Nat} {s : GoString} (hwritten : Written number unit s) :
    0 < unit := by
  have hunits : ∀ entry ∈ units, 0 < entry.2 := by decide +kernel
  exact hunits _ hwritten.filter_isLetter

/-- An accepted string is a size, and the value returned is that size exactly when it is
below two to the 63rd. -/
theorem parsed_size_is_exact_iff_it_fits (table : CaseTable) {s : GoString} {v : Int}
    (hparse : parseSize table s = .ok v) :
    (∃ number unit, Written number unit s) ∧
      ∀ number unit, Written number unit s →
        (0 < v ∧ v = (number * unit : Nat) ↔ number * unit < 2 ^ 63) := by
  obtain ⟨number, unit, hwritten, hpos, hvalue⟩ := parseSize_eq_ok hparse
  refine ⟨⟨number, unit, hwritten⟩, ?_⟩
  intro other otherUnit hother
  obtain ⟨rfl, rfl⟩ := hwritten.unique hother
  have hproduct : 0 < other * otherUnit := Nat.mul_pos hpos (unit_pos hother)
  constructor
  · rintro ⟨-, hexact⟩
    have hbound : v < 2 ^ 63 := by
      rw [hvalue]
      exact Int.bmod_lt (by decide)
    omega
  · intro hfits
    have hexact : v = (other * otherUnit : Nat) := by
      rw [hvalue]
      apply Int.bmod_eq_of_le
      · omega
      · omega
    exact ⟨by omega, hexact⟩

/-- A table in which nothing beyond ASCII has another case. -/
def caseless : CaseTable where
  upper := id
  rune_upper hrune _ := hrune
  ascii_upper _ hwide hone := by
    rw [id_eq] at hone
    subst hone
    simp at hwide
  space_upper _ _ _ := rfl

/-- Two to the 33rd gigabytes, two to the 34th, and one more than that. -/
theorem large_sizes_wrap :
    parseSize caseless (lit "8589934592GB") = .ok (-2 ^ 63) ∧
      parseSize caseless (lit "17179869184GB") = .ok 0 ∧
      parseSize caseless (lit "17179869185GB") = .ok (2 ^ 30) := by
  have hascii : ∀ text : GoString, (∀ byte ∈ text, byte < 0x80) →
      toUpper caseless text = text.map asciiUpper := fun text => toUpper_of_ascii caseless
  unfold parseSize
  rw [hascii _ (by decide +kernel), hascii _ (by decide +kernel), hascii _ (by decide +kernel)]
  decide +kernel

theorem spaced_size_is_exact :
    parseSize caseless (lit " 512 kb\n") = .ok 524288 ∧
      Written 512 (2 ^ 10) (lit " 512 kb\n") ∧
      0 < (524288 : Int) ∧ (524288 : Int) = (512 * 2 ^ 10 : Nat) := by
  have hparse : parseSize caseless (lit " 512 kb\n") = .ok 524288 := by
    unfold parseSize
    rw [toUpper_of_ascii caseless (by decide +kernel)]
    decide +kernel
  have hspace : Blank (lit " ") := ⟨[lit " "], by decide +kernel, rfl⟩
  have hnewline : Blank (lit "\n") := ⟨[lit "\n"], by decide +kernel, rfl⟩
  have hdigits : lit "512" ≠ [] ∧ ∀ byte ∈ lit "512", isDigit byte := by decide +kernel
  have hunit : ((lit "kb").map asciiUpper, 2 ^ 10) ∈ units := by decide +kernel
  have hwritten : Written 512 (2 ^ 10) (lit " 512 kb\n") :=
    .intro hspace (.inl rfl) hdigits (by decide) hspace hunit hnewline
  exact ⟨hparse, hwritten,
    ((parsed_size_is_exact_iff_it_fits caseless hparse).2 _ _ hwritten).mpr (by decide)⟩

end SimonMQ.Durable
