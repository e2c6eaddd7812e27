import SimonMQ.Go.Utf8

namespace SimonMQ.Go.Strings

open SimonMQ.Go.Utf8

/-! Package `strings`: white space and upper case in byte strings that need not be
well-formed UTF-8. -/

/-- The runes that `unicode.IsSpace` accepts. -/
def spaceRunes : List Bytes :=
  [0x09, 0x0A, 0x0B, 0x0C, 0x0D, 0x20, 0x85, 0xA0, 0x1680, 0x2000, 0x2001, 0x2002, 0x2003,
    0x2004, 0x2005, 0x2006, 0x2007, 0x2008, 0x2009, 0x200A, 0x2028, 0x2029, 0x202F, 0x205F,
    0x3000].map encodeRune

/-- White space, rune by rune. -/
def Blank (bytes : Bytes) : Prop :=
  ∃ chunks : List Bytes, (∀ chunk ∈ chunks, chunk ∈ spaceRunes) ∧ chunks.flatten = bytes

/-- Takes one of the pieces off the front as often as it can.  A piece has at least one
byte, so a string never needs more tries than it has bytes. -/
def strip (pieces : List Bytes) : Nat → Bytes → Bytes
  | 0, bytes => bytes
  | tries + 1, bytes =>
      match pieces.find? (·.isPrefixOf bytes) with
      | none => bytes
      | some piece => strip pieces tries (bytes.drop piece.length)

def trimLeft (bytes : Bytes) : Bytes := strip spaceRunes bytes.length bytes

def trimRight (bytes : Bytes) : Bytes :=
  (strip (spaceRunes.map List.reverse) bytes.length bytes.reverse).reverse

def trimSpace (bytes : Bytes) : Bytes := trimRight (trimLeft bytes)

/-- `unicode.ToUpper` on the runes beyond ASCII.  Two of them have an upper case in
ASCII, the dotless i and the long s, and none becomes white space. -/
structure CaseTable where
  upper : Bytes → Bytes
  rune_upper {chunk : Bytes} : Rune chunk → 1 < chunk.length → Rune (upper chunk)
  ascii_upper {chunk : Bytes} {byte : UInt8} :
    Rune chunk → 1 < chunk.length → upper chunk = [byte] → byte = 0x49 ∨ byte = 0x53
  space_upper {chunk : Bytes} :
    Rune chunk → 1 < chunk.length → upper chunk ∈ spaceRunes → upper chunk = chunk

def asciiUpper (byte : UInt8) : UInt8 :=
  if 0x61 ≤ byte && byte ≤ 0x7A then byte - 0x20 else byte

/-- The upper case of one rune.  An ill-formed byte becomes U+FFFD. -/
def CaseTable.upperRune (table : CaseTable) : Option Bytes → Bytes
  | none => runeError
  | some [byte] => [asciiUpper byte]
  | some chunk => table.upper chunk

/-- `strings.ToUpper`. -/
def toUpper (table : CaseTable) (bytes : Bytes) : Bytes :=
  (runes bytes).flatMap table.upperRune

theorem rune_of_mem_spaceRunes {chunk : Bytes} (hmem : chunk ∈ spaceRunes) : Rune chunk := by
  obtain ⟨value, _, rfl⟩ := List.mem_map.mp hmem
  exact rune_encodeRune value

theorem Blank.append {left right : Bytes} (hleft : Blank left) (hright : Blank right) :
    Blank (left ++ right) := by
  obtain ⟨leftChunks, hleftSpaces, rfl⟩ := hleft
  obtain ⟨rightChunks, hrightSpaces, rfl⟩ := hright
  refine ⟨leftChunks ++ rightChunks, ?_, List.flatten_append⟩
  intro chunk hmem
  exact (List.mem_append.mp hmem).elim (hleftSpaces chunk) (hrightSpaces chunk)

theorem exists_strip (pieces : List Bytes) (tries : Nat) (bytes : Bytes) :
    ∃ chunks : List Bytes, (∀ chunk ∈ chunks, chunk ∈ pieces) ∧
      bytes = chunks.flatten ++ strip pieces tries bytes := by
  induction tries generalizing bytes with
  | zero => exact ⟨[], by simp, rfl⟩
  | succ tries ih =>
      rw [strip]
      split
      next => exact ⟨[], by simp, rfl⟩
      next piece hfind =>
          have hpiece : piece ++ bytes.drop piece.length = bytes := by
            obtain ⟨rest, rfl⟩ : piece <+: bytes := by simpa using List.find?_some hfind
            rw [List.drop_left]
          obtain ⟨chunks, hchunks, heq⟩ := ih (bytes.drop piece.length)
          refine ⟨piece :: chunks, ?_, ?_⟩
          · intro chunk hmem
            rcases List.mem_cons.mp hmem with rfl | hmem
            · exact List.mem_of_find?_eq_some hfind
            · exact hchunks chunk hmem
          · rw [List.flatten_cons, List.append_assoc, ← heq, hpiece]

theorem exists_trimLeft (bytes : Bytes) :
    ∃ blank, Blank blank ∧ bytes = blank ++ trimLeft bytes := by
  obtain ⟨chunks, hchunks, heq⟩ := exists_strip spaceRunes bytes.length bytes
  exact ⟨chunks.flatten, ⟨chunks, hchunks, rfl⟩, heq⟩

theorem exists_trimRight (bytes : Bytes) :
    ∃ blank, Blank blank ∧ bytes = trimRight bytes ++ blank := by
  obtain ⟨chunks, hchunks, heq⟩ :=
    exists_strip (spaceRunes.map List.reverse) bytes.length bytes.reverse
  refine ⟨chunks.flatten.reverse, ⟨(chunks.map List.reverse).reverse, ?_, ?_⟩, ?_⟩
  · intro chunk hmem
    obtain ⟨backward, hbackward, rfl⟩ := List.mem_map.mp (List.mem_reverse.mp hmem)
    obtain ⟨space, hspace, rfl⟩ := List.mem_map.mp (hchunks backward hbackward)
    rw [List.reverse_reverse]
    exact hspace
  · rw [List.reverse_flatten]
  · rw [trimRight, ← List.reverse_append, ← heq, List.reverse_reverse]

theorem exists_trimSpace (bytes : Bytes) :
    ∃ before after, Blank before ∧ Blank after ∧
      bytes = before ++ trimSpace bytes ++ after := by
  obtain ⟨before, hbefore, hleft⟩ := exists_trimLeft bytes
  obtain ⟨after, hafter, hright⟩ := exists_trimRight (trimLeft bytes)
  refine ⟨before, after, hbefore, hafter, ?_⟩
  rw [List.append_assoc, trimSpace, ← hright, ← hleft]

@[simp] theorem toUpper_nil (table : CaseTable) : toUpper table [] = [] := by
  simp [toUpper, runes]

theorem asciiUpper_eq_or_letter (byte : UInt8) :
    asciiUpper byte = byte ∨
      0x41 ≤ (asciiUpper byte).toNat ∧ (asciiUpper byte).toNat ≤ 0x5A := by
  unfold asciiUpper
  split
  next hlower =>
      simp only [Bool.and_eq_true, decide_eq_true_eq, UInt8.le_iff_toNat_le,
        UInt8.reduceToNat] at hlower
      have hroom : (0x20 : UInt8) ≤ byte := by
        simp only [UInt8.le_iff_toNat_le, UInt8.reduceToNat]
        omega
      rw [UInt8.toNat_sub_of_le _ _ hroom]
      simp only [UInt8.reduceToNat]
      omega
  next => exact .inl rfl

theorem asciiUpper_lt {byte : UInt8} (hbyte : byte < 0x80) : asciiUpper byte < 0x80 := by
  rcases asciiUpper_eq_or_letter byte with hsame | hletter
  · rw [hsame]
    exact hbyte
  · simp only [UInt8.lt_iff_toNat_lt, UInt8.reduceToNat]
    omega

theorem asciiUpper_of_lt {byte : UInt8} (hbyte : byte.toNat < 0x41) :
    asciiUpper byte = byte := by
  apply if_neg
  simp only [Bool.and_eq_true, decide_eq_true_eq, UInt8.le_iff_toNat_le, UInt8.reduceToNat]
  omega

theorem eq_of_asciiUpper_not_letter {byte : UInt8}
    (hupper : (asciiUpper byte).toNat < 0x41) : asciiUpper byte = byte := by
  rcases asciiUpper_eq_or_letter byte with hsame | hletter
  · exact hsame
  · omega

theorem upperRune_of_wide (table : CaseTable) {chunk : Bytes} (hwide : 1 < chunk.length) :
    table.upperRune (some chunk) = table.upper chunk := by
  match chunk, hwide with
  | _ :: _ :: _, _ => rfl

theorem rune_upperRune (table : CaseTable) {chunk : Bytes} (hrune : Rune chunk) :
    Rune (table.upperRune (some chunk)) := by
  by_cases hwide : 1 < chunk.length
  · rw [upperRune_of_wide table hwide]
    exact table.rune_upper hrune hwide
  · cases hrune with
    | ascii hfirst => exact .ascii (asciiUpper_lt hfirst)
    | two => simp at hwide
    | three => simp at hwide
    | four => simp at hwide

theorem append_rune_inj {first second left right : Bytes} (hfirst : Rune first)
    (hsecond : Rune second) (heq : first ++ left = second ++ right) :
    first = second ∧ left = right := by
  have hrunes := congrArg runes heq
  rw [hfirst.runes_append, hsecond.runes_append, List.cons.injEq, Option.some.injEq] at hrunes
  obtain ⟨rfl, _⟩ := hrunes
  exact ⟨rfl, List.append_cancel_left heq⟩

theorem exists_of_toUpper_append {table : CaseTable} {bytes piece right : Bytes}
    (hpiece : Rune piece) (hproper : piece ≠ runeError)
    (hupper : toUpper table bytes = piece ++ right) :
    ∃ source rest, bytes = source ++ rest ∧ Rune source ∧
      table.upperRune (some source) = piece ∧ toUpper table rest = right := by
  cases bytes with
  | nil =>
      rw [toUpper_nil] at hupper
      have hempty := (List.append_eq_nil_iff.mp hupper.symm).1
      have hpos := hpiece.length_pos
      rw [hempty] at hpos
      contradiction
  | cons first tail =>
      rw [toUpper, runes] at hupper
      split at hupper
      next hsize =>
          rw [List.flatMap_cons] at hupper
          exact absurd (append_rune_inj rune_runeError hpiece hupper).1.symm hproper
      next hsize =>
          have hsource := rune_take_runeSize hsize
          rw [List.flatMap_cons] at hupper
          obtain ⟨hfirst, hrest⟩ :=
            append_rune_inj (rune_upperRune table hsource) hpiece hupper
          exact ⟨_, _, (List.take_append_drop _ _).symm, hsource, hfirst, hrest⟩

theorem toNat_lt_of_mem_spaceRunes {byte : UInt8} (hspace : [byte] ∈ spaceRunes) :
    byte.toNat < 0x41 := by
  have hsmall : ∀ chunk ∈ spaceRunes, chunk.length = 1 → (chunk.headD 0).toNat < 0x41 := by
    decide
  exact hsmall [byte] hspace rfl

theorem eq_of_upperRune_space {table : CaseTable} {source : Bytes} (hsource : Rune source)
    (hspace : table.upperRune (some source) ∈ spaceRunes) :
    table.upperRune (some source) = source := by
  by_cases hwide : 1 < source.length
  · rw [upperRune_of_wide table hwide] at hspace ⊢
    exact table.space_upper hsource hwide hspace
  · cases hsource with
    | @ascii first hfirst =>
        have hupper : asciiUpper first = first :=
          eq_of_asciiUpper_not_letter (toNat_lt_of_mem_spaceRunes hspace)
        exact congrArg (fun byte => [byte]) hupper
    | two => simp at hwide
    | three => simp at hwide
    | four => simp at hwide

theorem exists_of_upperRune_ascii {table : CaseTable} {source : Bytes} {byte : UInt8}
    (hsource : Rune source) (hdotless : byte ≠ 0x49) (hlong : byte ≠ 0x53)
    (hupper : table.upperRune (some source) = [byte]) :
    ∃ letter, source = [letter] ∧ asciiUpper letter = byte := by
  by_cases hwide : 1 < source.length
  · rw [upperRune_of_wide table hwide] at hupper
    exact ((table.ascii_upper hsource hwide hupper).elim hdotless hlong).elim
  · cases hsource with
    | @ascii first hfirst => exact ⟨first, rfl, (List.cons.inj hupper).1⟩
    | two => simp at hwide
    | three => simp at hwide
    | four => simp at hwide

theorem eq_nil_of_toUpper_eq_nil {table : CaseTable} {bytes : Bytes}
    (hupper : toUpper table bytes = []) : bytes = [] := by
  cases bytes with
  | nil => rfl
  | cons first tail =>
      rw [toUpper, runes] at hupper
      split at hupper
      next => simp [CaseTable.upperRune, runeError] at hupper
      next hsize =>
          rw [List.flatMap_cons] at hupper
          have hempty := (List.append_eq_nil_iff.mp hupper).1
          have hpos := (rune_upperRune table (rune_take_runeSize hsize)).length_pos
          rw [hempty] at hpos
          contradiction

theorem exists_of_toUpper_blank {table : CaseTable} {bytes blank right : Bytes}
    (hblank : Blank blank) (hupper : toUpper table bytes = blank ++ right) :
    ∃ rest, bytes = blank ++ rest ∧ toUpper table rest = right := by
  obtain ⟨chunks, hchunks, rfl⟩ := hblank
  induction chunks generalizing bytes with
  | nil => exact ⟨bytes, rfl, hupper⟩
  | cons chunk chunks ih =>
      have hspace := hchunks chunk List.mem_cons_self
      rw [List.flatten_cons, List.append_assoc] at hupper
      have hproper : chunk ≠ runeError := by
        rintro rfl
        revert hspace
        decide
      obtain ⟨source, rest, rfl, hsource, hfirst, hrest⟩ :=
        exists_of_toUpper_append (rune_of_mem_spaceRunes hspace) hproper hupper
      obtain ⟨after, rfl, hafter⟩ :=
        ih (fun other hmem => hchunks other (List.mem_cons_of_mem _ hmem)) hrest
      refine ⟨after, ?_, hafter⟩
      have hsame : source = chunk := by
        rw [← hfirst] at hspace
        rw [← eq_of_upperRune_space hsource hspace, hfirst]
      rw [hsame, List.flatten_cons, List.append_assoc]

theorem exists_of_toUpper_ascii {table : CaseTable} {bytes text right : Bytes}
    (htext : ∀ byte ∈ text, byte < 0x80 ∧ byte ≠ 0x49 ∧ byte ≠ 0x53)
    (hupper : toUpper table bytes = text ++ right) :
    ∃ front rest, bytes = front ++ rest ∧ front.map asciiUpper = text ∧
      toUpper table rest = right := by
  induction text generalizing bytes with
  | nil => exact ⟨[], bytes, rfl, rfl, hupper⟩
  | cons byte text ih =>
      obtain ⟨hascii, hdotless, hlong⟩ := htext byte List.mem_cons_self
      have hrune : Rune [byte] := .ascii hascii
      have hproper : [byte] ≠ runeError := by simp [runeError]
      obtain ⟨source, rest, rfl, hsource, hfirst, hrest⟩ :=
        exists_of_toUpper_append hrune hproper hupper
      obtain ⟨letter, rfl, hletter⟩ :=
        exists_of_upperRune_ascii hsource hdotless hlong hfirst
      obtain ⟨front, after, rfl, hfront, hafter⟩ :=
        ih (fun other hmem => htext other (List.mem_cons_of_mem _ hmem)) hrest
      refine ⟨letter :: front, after, rfl, ?_, hafter⟩
      rw [List.map_cons, hletter, hfront]

theorem toUpper_of_ascii (table : CaseTable) {bytes : Bytes}
    (hascii : ∀ byte ∈ bytes, byte < 0x80) : toUpper table bytes = bytes.map asciiUpper := by
  induction bytes with
  | nil => exact toUpper_nil table
  | cons first tail ih =>
      have hrunes := (Rune.ascii (hascii first List.mem_cons_self)).runes_append tail
      have htail := ih fun byte hmem => hascii byte (List.mem_cons_of_mem _ hmem)
      rw [List.singleton_append] at hrunes
      rw [toUpper, hrunes, List.flatMap_cons, ← toUpper, htail]
      rfl

end SimonMQ.Go.Strings
