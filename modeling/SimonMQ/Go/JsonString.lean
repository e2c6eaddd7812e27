import SimonMQ.Go.Utf8

namespace SimonMQ.Go.Json

open SimonMQ.Go.Utf8

/-! String literals of `encoding/json`.  Marshal writes valid UTF-8 with HTML
characters escaped; unmarshal reads any legal escape and coerces the rest. -/

def hexDigit (value : Nat) : UInt8 :=
  if value < 10 then UInt8.ofNat (0x30 + value) else UInt8.ofNat (0x57 + value)

def hexValue (byte : UInt8) : Option Nat :=
  if 0x30 ≤ byte ∧ byte ≤ 0x39 then some (byte.toNat - 0x30)
  else if 0x61 ≤ byte ∧ byte ≤ 0x66 then some (byte.toNat - 0x57)
  else if 0x41 ≤ byte ∧ byte ≤ 0x46 then some (byte.toNat - 0x37)
  else none

theorem hexValue_hexDigit (value : Nat) (hvalue : value < 16) :
    hexValue (hexDigit value) = some value := by
  have hall : ∀ value : Fin 16, hexValue (hexDigit value) = some value.val := by
    decide
  exact hall ⟨value, hvalue⟩

/-- `htmlSafeSet`: the ASCII bytes written without an escape. -/
def htmlSafe (byte : UInt8) : Bool :=
  0x20 ≤ byte && byte ≤ 0x7F && byte != 0x22 && byte != 0x26 && byte != 0x3C &&
    byte != 0x3E && byte != 0x5C

def quoteAscii (byte : UInt8) : Bytes :=
  if htmlSafe byte then [byte]
  else if byte = 0x5C ∨ byte = 0x22 then [0x5C, byte]
  else if byte = 0x08 then [0x5C, 0x62]
  else if byte = 0x0C then [0x5C, 0x66]
  else if byte = 0x0A then [0x5C, 0x6E]
  else if byte = 0x0D then [0x5C, 0x72]
  else if byte = 0x09 then [0x5C, 0x74]
  else
    [0x5C, 0x75, 0x30, 0x30, hexDigit (byte.toNat / 16), hexDigit (byte.toNat % 16)]

def quoteRune : Option Bytes → Bytes
  | none => [0x5C, 0x75, 0x66, 0x66, 0x66, 0x64]
  | some [byte] => quoteAscii byte
  | some chunk =>
      if chunk = [0xE2, 0x80, 0xA8] then [0x5C, 0x75, 0x32, 0x30, 0x32, 0x38]
      else if chunk = [0xE2, 0x80, 0xA9] then [0x5C, 0x75, 0x32, 0x30, 0x32, 0x39]
      else chunk

def quoteBody (text : GoString) : Bytes := (runes text).flatMap quoteRune

/-- A string literal as `json.Marshal` writes it. -/
def quote (text : GoString) : Bytes := 0x22 :: (quoteBody text ++ [0x22])

def hex4 (a b c d : UInt8) : Option Nat := do
  let first ← hexValue a
  let second ← hexValue b
  let third ← hexValue c
  let fourth ← hexValue d
  some (((first * 16 + second) * 16 + third) * 16 + fourth)

/-- The decoded form of the escape that follows a backslash, with the number of
bytes it occupies after that backslash. -/
def unescape : Bytes → Option (Bytes × Nat)
  | 0x75 :: a :: b :: c :: d :: more =>
      match hex4 a b c d with
      | none => none
      | some value =>
          if 0xD800 ≤ value ∧ value < 0xE000 then
            match more with
            | 0x5C :: 0x75 :: a' :: b' :: c' :: d' :: _ =>
                match hex4 a' b' c' d' with
                | none => some (runeError, 5)
                | some low =>
                    if value < 0xDC00 ∧ 0xDC00 ≤ low ∧ low < 0xE000 then
                      some (encodeRune
                        ((value - 0xD800) * 1024 + (low - 0xDC00) + 0x10000), 11)
                    else some (runeError, 5)
            | _ => some (runeError, 5)
          else some (encodeRune value, 5)
  | byte :: _ =>
      if byte = 0x22 ∨ byte = 0x5C ∨ byte = 0x2F then some ([byte], 1)
      else if byte = 0x62 then some ([0x08], 1)
      else if byte = 0x66 then some ([0x0C], 1)
      else if byte = 0x6E then some ([0x0A], 1)
      else if byte = 0x72 then some ([0x0D], 1)
      else if byte = 0x74 then some ([0x09], 1)
      else none
  | [] => none

/-- The text of a string literal whose opening quote has been read, and the
input after its closing quote. -/
def unquote : Bytes → Option (GoString × Bytes)
  | [] => none
  | byte :: tail =>
      if byte = 0x22 then some ([], tail)
      else if byte = 0x5C then
        match unescape tail with
        | none => none
        | some (chunk, size) =>
            (unquote (tail.drop size)).map fun result =>
              (chunk ++ result.1, result.2)
      else if byte < 0x20 then none
      else if runeSize (byte :: tail) = 0 then
        (unquote tail).map fun result => (runeError ++ result.1, result.2)
      else
        (unquote ((byte :: tail).drop (runeSize (byte :: tail)))).map fun result =>
          ((byte :: tail).take (runeSize (byte :: tail)) ++ result.1, result.2)
termination_by bytes => bytes.length
decreasing_by
  · simp only [List.length_drop, List.length_cons]; omega
  · simp
  · simp only [List.length_drop, List.length_cons]; omega

theorem rune_of_unescape {bytes chunk : Bytes} {size : Nat}
    (hunescape : unescape bytes = some (chunk, size)) : Rune chunk := by
  unfold unescape at hunescape
  split at hunescape
  · split at hunescape
    · contradiction
    · split at hunescape
      · split at hunescape
        · split at hunescape
          · rw [← (Prod.mk.inj (Option.some.inj hunescape)).1]
            exact rune_runeError
          · split at hunescape
            · rw [← (Prod.mk.inj (Option.some.inj hunescape)).1]
              exact rune_encodeRune _
            · rw [← (Prod.mk.inj (Option.some.inj hunescape)).1]
              exact rune_runeError
        · rw [← (Prod.mk.inj (Option.some.inj hunescape)).1]
          exact rune_runeError
      · rw [← (Prod.mk.inj (Option.some.inj hunescape)).1]
        exact rune_encodeRune _
  · split_ifs at hunescape with hself
    · rw [← (Prod.mk.inj (Option.some.inj hunescape)).1]
      apply Rune.ascii
      rcases hself with rfl | rfl | rfl <;> decide
    all_goals
      rw [← (Prod.mk.inj (Option.some.inj hunescape)).1]
      exact .ascii (by decide)
  · contradiction

theorem valid_of_unquote {bytes rest : Bytes} {text : GoString}
    (hunquote : unquote bytes = some (text, rest)) : Valid text := by
  fun_induction unquote bytes generalizing text rest with
  | case1 => contradiction
  | case2 tail => cases hunquote; exact valid_nil
  | case3 tail _ _ => contradiction
  | case4 tail chunk size hunescape _ ih =>
      obtain ⟨result, hresult, heq⟩ := Option.map_eq_some_iff.mp hunquote
      cases heq
      exact (rune_of_unescape hunescape).valid.append (ih hresult)
  | case5 => contradiction
  | case6 byte tail _ _ _ hsize ih =>
      obtain ⟨result, hresult, heq⟩ := Option.map_eq_some_iff.mp hunquote
      cases heq
      exact rune_runeError.valid.append (ih hresult)
  | case7 byte tail _ _ _ hsize ih =>
      obtain ⟨result, hresult, heq⟩ := Option.map_eq_some_iff.mp hunquote
      cases heq
      exact (rune_take_runeSize hsize).valid.append (ih hresult)

theorem unquote_escape (escape : Bytes) {chunk rest : Bytes}
    (hunescape : unescape (escape ++ rest) = some (chunk, escape.length)) :
    unquote (0x5C :: escape ++ rest) =
      (unquote rest).map fun result => (chunk ++ result.1, result.2) := by
  rw [List.cons_append, unquote, if_neg (by decide), if_pos rfl, hunescape]
  simp only [List.drop_left]

theorem unquote_rune {chunk rest : Bytes} (hrune : Rune chunk)
    (hquote : chunk ≠ [0x22]) (hbackslash : chunk ≠ [0x5C])
    (hcontrol : ∀ byte, chunk = [byte] → ¬ byte < 0x20) :
    unquote (chunk ++ rest) =
      (unquote rest).map fun result => (chunk ++ result.1, result.2) := by
  have hsize := hrune.runeSize_append rest
  have hpos := hrune.length_pos
  have hfirst : ∀ first tail, chunk = first :: tail →
      first ≠ 0x22 ∧ first ≠ 0x5C ∧ ¬ first < 0x20 := by
    intro first tail heq
    cases hrune with
    | ascii hascii =>
        obtain ⟨rfl, rfl⟩ := List.cons.inj heq
        refine ⟨?_, ?_, hcontrol _ rfl⟩
        · rintro rfl; exact hquote rfl
        · rintro rfl; exact hbackslash rfl
    | two hrange | three hrange | four hrange =>
        obtain ⟨rfl, rfl⟩ := List.cons.inj heq
        simp only [UInt8.le_iff_toNat_le, UInt8.lt_iff_toNat_lt, ne_eq,
          ← UInt8.toNat_inj, UInt8.reduceToNat] at hrange ⊢
        omega
  cases chunk with
  | nil => simp at hpos
  | cons first tail =>
      obtain ⟨hne, hne', hprint⟩ := hfirst first tail rfl
      rw [List.cons_append] at hsize ⊢
      rw [unquote, if_neg hne, if_neg hne', if_neg hprint, hsize,
        if_neg (by simp), ← List.cons_append, List.take_left, List.drop_left]

theorem unquote_quoteAscii {byte : UInt8} (hascii : byte < 0x80) (rest : Bytes) :
    unquote (quoteAscii byte ++ rest) =
      (unquote rest).map fun result => ([byte] ++ result.1, result.2) := by
  unfold quoteAscii
  split_ifs with hsafe hself hb hf hn hr ht
  · apply unquote_rune (.ascii hascii)
    · rintro heq; rw [(List.cons.inj heq).1] at hsafe; exact absurd hsafe (by decide)
    · rintro heq; rw [(List.cons.inj heq).1] at hsafe; exact absurd hsafe (by decide)
    · intro other heq hcontrol
      rw [(List.cons.inj heq).1] at hsafe
      simp only [htmlSafe, Bool.and_eq_true, decide_eq_true_eq] at hsafe
      have := hsafe.1.1.1.1.1.1
      simp only [UInt8.le_iff_toNat_le, UInt8.lt_iff_toNat_lt] at this hcontrol
      omega
  · rcases hself with rfl | rfl <;>
      exact unquote_escape [_] (by simp [unescape])
  · subst hb; exact unquote_escape [_] (by simp [unescape])
  · subst hf; exact unquote_escape [_] (by simp [unescape])
  · subst hn; exact unquote_escape [_] (by simp [unescape])
  · subst hr; exact unquote_escape [_] (by simp [unescape])
  · subst ht; exact unquote_escape [_] (by simp [unescape])
  · have hbound : byte.toNat < 0x80 := by
      simpa [UInt8.lt_iff_toNat_lt] using hascii
    refine unquote_escape
      [0x75, 0x30, 0x30, hexDigit (byte.toNat / 16), hexDigit (byte.toNat % 16)] ?_
    have hhigh := hexValue_hexDigit (byte.toNat / 16) (by omega)
    have hlow := hexValue_hexDigit (byte.toNat % 16) (by omega)
    have hzero : hexValue 0x30 = some 0 := rfl
    have hvalue : ((0 * 16 + 0) * 16 + byte.toNat / 16) * 16 + byte.toNat % 16 =
        byte.toNat := by omega
    have hcode : hex4 0x30 0x30 (hexDigit (byte.toNat / 16))
        (hexDigit (byte.toNat % 16)) = some byte.toNat := by
      simp only [hex4, hhigh, hlow, hzero, Option.bind_eq_bind, Option.bind_some,
        hvalue]
    have hsurrogate : ¬ (0xD800 ≤ byte.toNat ∧ byte.toNat < 0xE000) := by omega
    simp [unescape, hcode, hsurrogate, encodeRune, hbound]

theorem unquote_quoteRune {chunk : Option Bytes}
    (hrune : ∀ bytes, chunk = some bytes → Rune bytes) (rest : Bytes) :
    unquote (quoteRune chunk ++ rest) =
      (unquote rest).map fun result =>
        (chunk.getD runeError ++ result.1, result.2) := by
  unfold quoteRune
  split
  · exact unquote_escape [0x75, 0x66, 0x66, 0x66, 0x64] (by rfl)
  · rename_i byte
    have hascii : byte < 0x80 := by
      cases hrune [byte] rfl with
      | ascii hascii => exact hascii
    exact unquote_quoteAscii hascii rest
  · rename_i bytes hsingle
    split_ifs with hline hparagraph
    · subst hline
      exact unquote_escape [0x75, 0x32, 0x30, 0x32, 0x38] (by rfl)
    · subst hparagraph
      exact unquote_escape [0x75, 0x32, 0x30, 0x32, 0x39] (by rfl)
    · exact unquote_rune (hrune bytes rfl) (fun heq => hsingle _ (by rw [heq]))
        (fun heq => hsingle _ (by rw [heq]))
        (fun byte heq => absurd (by rw [heq]) (hsingle byte))

theorem unquote_quoteBody (text : GoString) (rest : Bytes) :
    unquote (quoteBody text ++ 0x22 :: rest) = some (toValid text, rest) := by
  have hrunes : ∀ chunk ∈ runes text, ∀ bytes, chunk = some bytes → Rune bytes := by
    rintro chunk hmem bytes rfl
    exact rune_of_mem_runes hmem
  unfold quoteBody toValid
  generalize runes text = chunks at hrunes ⊢
  induction chunks with
  | nil => simp [unquote]
  | cons chunk chunks ih =>
      have htail := ih fun other hmem => hrunes other (List.mem_cons_of_mem _ hmem)
      rw [List.flatMap_cons, List.append_assoc,
        unquote_quoteRune (hrunes chunk List.mem_cons_self), htail]
      rfl

end SimonMQ.Go.Json
