import SimonMQ.Go.JsonString
import SimonMQ.Go.Strconv

namespace SimonMQ.Go.Json

open SimonMQ.Go.Utf8

/-! JSON texts: the compact form `json.Marshal` writes and the grammar
`json.Unmarshal` accepts. -/

inductive Value
  | null
  | bool (flag : Bool)
  | number (literal : Bytes)
  | string (text : GoString)
  | array (items : List Value)
  | object (members : List (GoString × Value))

namespace Value

mutual

def print : Value → Bytes
  | .null => [0x6E, 0x75, 0x6C, 0x6C]
  | .bool true => [0x74, 0x72, 0x75, 0x65]
  | .bool false => [0x66, 0x61, 0x6C, 0x73, 0x65]
  | .number literal => literal
  | .string text => quote text
  | .array items => 0x5B :: printItems items
  | .object members => 0x7B :: printMembers members

def printItems : List Value → Bytes
  | [] => [0x5D]
  | [item] => print item ++ [0x5D]
  | item :: next :: items => print item ++ 0x2C :: printItems (next :: items)

def printMembers : List (GoString × Value) → Bytes
  | [] => [0x7D]
  | [(key, value)] => quote key ++ 0x3A :: (print value ++ [0x7D])
  | (key, value) :: next :: members =>
      quote key ++
        0x3A :: (print value ++ 0x2C :: printMembers (next :: members))

end

mutual

def coerce : Value → Value
  | .null => .null
  | .bool flag => .bool flag
  | .number literal => .number literal
  | .string text => .string (toValid text)
  | .array items => .array (coerceItems items)
  | .object members => .object (coerceMembers members)

def coerceItems : List Value → List Value
  | [] => []
  | item :: items => coerce item :: coerceItems items

def coerceMembers : List (GoString × Value) → List (GoString × Value)
  | [] => []
  | (key, value) :: members => (toValid key, coerce value) :: coerceMembers members

end

theorem coerceItems_eq_map (items : List Value) :
    coerceItems items = items.map coerce := by
  induction items with
  | nil => rfl
  | cons item items ih => simp [coerceItems, ih]

theorem coerceMembers_eq_map (members : List (GoString × Value)) :
    coerceMembers members =
      members.map fun member => (toValid member.1, member.2.coerce) := by
  induction members with
  | nil => rfl
  | cons member members ih => simp [coerceMembers, ih]

end Value

def isSpace (byte : UInt8) : Bool :=
  byte = 0x20 || byte = 0x09 || byte = 0x0D || byte = 0x0A

def skipSpace (bytes : Bytes) : Bytes := bytes.dropWhile isSpace

theorem skipSpace_cons (byte : UInt8) (hbyte : isSpace byte = false)
    (rest : Bytes) : skipSpace (byte :: rest) = byte :: rest := by
  simp [skipSpace, hbyte]

/-! Numbers are kept as the literal that was read. -/

def lexInteger : Bytes → Option (Bytes × Bytes)
  | [] => none
  | byte :: tail =>
      if byte = 0x30 then some ([byte], tail)
      else if isDigit byte then
        some (byte :: tail.takeWhile isDigit, tail.dropWhile isDigit)
      else none

def lexDigits (lead : Bytes) (bytes : Bytes) : Option (Bytes × Bytes) :=
  if (bytes.takeWhile isDigit).isEmpty then none
  else some (lead ++ bytes.takeWhile isDigit, bytes.dropWhile isDigit)

def lexFraction : Bytes → Option (Bytes × Bytes)
  | 0x2E :: tail => lexDigits [0x2E] tail
  | bytes => some ([], bytes)

def lexExponent : Bytes → Option (Bytes × Bytes)
  | [] => some ([], [])
  | byte :: tail =>
      if byte = 0x65 ∨ byte = 0x45 then
        match tail with
        | 0x2B :: digits => lexDigits [byte, 0x2B] digits
        | 0x2D :: digits => lexDigits [byte, 0x2D] digits
        | digits => lexDigits [byte] digits
      else some ([], byte :: tail)

def lexUnsigned (bytes : Bytes) : Option (Bytes × Bytes) := do
  let (whole, bytes) ← lexInteger bytes
  let (fraction, bytes) ← lexFraction bytes
  let (exponent, bytes) ← lexExponent bytes
  some (whole ++ fraction ++ exponent, bytes)

def lexNumber : Bytes → Option (Bytes × Bytes)
  | 0x2D :: tail =>
      (lexUnsigned tail).map fun result => (0x2D :: result.1, result.2)
  | bytes => lexUnsigned bytes

/-- What may follow a number without becoming part of it. -/
def EndsNumber (rest : Bytes) : Prop :=
  ∀ byte tail, rest = byte :: tail →
    isDigit byte = false ∧ byte ≠ 0x2E ∧ byte ≠ 0x65 ∧ byte ≠ 0x45

theorem lexUnsigned_formatUint (value : Nat) {rest : Bytes}
    (hrest : EndsNumber rest) :
    lexUnsigned (formatUint value ++ rest) = some (formatUint value, rest) := by
  obtain ⟨first, tail, heq, hdigit, hzero⟩ := head_formatUint value
  have htail : ∀ byte ∈ tail, isDigit byte := fun byte hmem =>
    all_isDigit_formatUint value byte (by rw [heq]; exact List.mem_cons_of_mem _ hmem)
  have hrestTake : rest.takeWhile isDigit = [] := by
    cases rest with
    | nil => rfl
    | cons byte bytes => simp [(hrest byte bytes rfl).1]
  have hrestDrop : rest.dropWhile isDigit = rest := by
    cases rest with
    | nil => rfl
    | cons byte bytes => simp [(hrest byte bytes rfl).1]
  have hwhole : lexInteger (formatUint value ++ rest) =
      some (formatUint value, rest) := by
    rw [heq, List.cons_append, lexInteger]
    by_cases hfirst : first = 0x30
    · rw [if_pos hfirst, hzero hfirst]
      rfl
    · rw [if_neg hfirst, if_pos hdigit, List.takeWhile_append_of_pos htail,
        List.dropWhile_append_of_pos htail, hrestTake, hrestDrop, List.append_nil]
  have hfraction : lexFraction rest = some ([], rest) := by
    unfold lexFraction
    split
    · rename_i tail
      exact absurd rfl (hrest _ tail rfl).2.1
    · rfl
  have hexponent : lexExponent rest = some ([], rest) := by
    cases rest with
    | nil => rfl
    | cons byte bytes =>
        have hends := hrest byte bytes rfl
        exact if_neg (by simp [hends.2.2.1, hends.2.2.2])
  simp [lexUnsigned, hwhole, hfraction, hexponent]

theorem lexNumber_formatInt (value : Int) {rest : Bytes}
    (hrest : EndsNumber rest) :
    lexNumber (formatInt value ++ rest) = some (formatInt value, rest) := by
  have hlex := lexUnsigned_formatUint value.natAbs hrest
  unfold formatInt
  by_cases hnegative : value < 0
  · simp [if_pos hnegative, lexNumber, hlex]
  · obtain ⟨first, tail, heq, hdigit, _⟩ := head_formatUint value.natAbs
    have hminus : first ≠ 0x2D := by
      rintro rfl
      exact absurd hdigit (by decide)
    rw [heq, List.cons_append] at hlex
    rw [if_neg hnegative, heq, List.cons_append]
    unfold lexNumber
    split
    · rename_i hcons
      exact absurd (List.cons.inj hcons).1 hminus
    · exact hlex

/-! The reader.  `depth` counts the containers that may still be opened. -/

def parseLiteral (bytes : Bytes) : Option (Value × Bytes) :=
  if [0x6E, 0x75, 0x6C, 0x6C].isPrefixOf bytes then some (.null, bytes.drop 4)
  else if [0x74, 0x72, 0x75, 0x65].isPrefixOf bytes then
    some (.bool true, bytes.drop 4)
  else if [0x66, 0x61, 0x6C, 0x73, 0x65].isPrefixOf bytes then
    some (.bool false, bytes.drop 5)
  else (lexNumber bytes).map fun result => (.number result.1, result.2)

def parseItems (parse : Bytes → Option (Value × Bytes)) :
    Nat → Bytes → Option (List Value × Bytes)
  | 0, _ => none
  | fuel + 1, bytes =>
      match parse bytes with
      | none => none
      | some (item, rest) =>
          match skipSpace rest with
          | 0x2C :: tail =>
              (parseItems parse fuel tail).map fun result =>
                (item :: result.1, result.2)
          | 0x5D :: tail => some ([item], tail)
          | _ => none

def parseMember (parse : Bytes → Option (Value × Bytes)) (bytes : Bytes) :
    Option ((GoString × Value) × Bytes) :=
  match skipSpace bytes with
  | 0x22 :: body =>
      match unquote body with
      | none => none
      | some (key, rest) =>
          match skipSpace rest with
          | 0x3A :: tail =>
              (parse tail).map fun result => ((key, result.1), result.2)
          | _ => none
  | _ => none

def parseMembers (parse : Bytes → Option (Value × Bytes)) :
    Nat → Bytes → Option (List (GoString × Value) × Bytes)
  | 0, _ => none
  | fuel + 1, bytes =>
      match parseMember parse bytes with
      | none => none
      | some (member, rest) =>
          match skipSpace rest with
          | 0x2C :: tail =>
              (parseMembers parse fuel tail).map fun result =>
                (member :: result.1, result.2)
          | 0x7D :: tail => some ([member], tail)
          | _ => none

def parseArray (parse : Bytes → Option (Value × Bytes)) (bytes : Bytes) :
    Option (Value × Bytes) :=
  match skipSpace bytes with
  | 0x5D :: rest => some (.array [], rest)
  | items =>
      (parseItems parse items.length items).map fun result =>
        (.array result.1, result.2)

def parseObject (parse : Bytes → Option (Value × Bytes)) (bytes : Bytes) :
    Option (Value × Bytes) :=
  match skipSpace bytes with
  | 0x7D :: rest => some (.object [], rest)
  | members =>
      (parseMembers parse members.length members).map fun result =>
        (.object result.1, result.2)

def parseValue : Nat → Bytes → Option (Value × Bytes)
  | 0, bytes =>
      match skipSpace bytes with
      | 0x22 :: body =>
          (unquote body).map fun result => (.string result.1, result.2)
      | 0x5B :: _ => none
      | 0x7B :: _ => none
      | literal => parseLiteral literal
  | depth + 1, bytes =>
      match skipSpace bytes with
      | 0x22 :: body =>
          (unquote body).map fun result => (.string result.1, result.2)
      | 0x5B :: body => parseArray (parseValue depth) body
      | 0x7B :: body => parseObject (parseValue depth) body
      | literal => parseLiteral literal

def maxNestingDepth : Nat := 10000

/-- A complete JSON text with nothing after it. -/
def parse (bytes : Bytes) : Option Value :=
  match parseValue maxNestingDepth bytes with
  | none => none
  | some (value, rest) => if (skipSpace rest).isEmpty then some value else none

/-! Reading back a printed value. -/

/-- Values the printer writes as JSON, with at most `depth` nested containers. -/
inductive Printable : Nat → Value → Prop
  | null : Printable depth .null
  | bool (flag : Bool) : Printable depth (.bool flag)
  | number (value : Int) : Printable depth (.number (formatInt value))
  | string (text : GoString) : Printable depth (.string text)
  | array {items : List Value}
      (hitems : ∀ item ∈ items, Printable depth item) :
      Printable (depth + 1) (.array items)
  | object {members : List (GoString × Value)}
      (hmembers : ∀ member ∈ members, Printable depth member.2) :
      Printable (depth + 1) (.object members)

theorem Printable.mono {small large : Nat} {value : Value}
    (hvalue : Printable small value) (hle : small ≤ large) :
    Printable large value := by
  induction hvalue generalizing large with
  | null => exact .null
  | bool flag => exact .bool flag
  | number value => exact .number value
  | string text => exact .string text
  | array hitems ih =>
      obtain ⟨large, rfl⟩ : ∃ depth, large = depth + 1 := ⟨large - 1, by omega⟩
      exact .array fun item hmem => ih item hmem (by omega)
  | object hmembers ih =>
      obtain ⟨large, rfl⟩ : ∃ depth, large = depth + 1 := ⟨large - 1, by omega⟩
      exact .object fun member hmem => ih member hmem (by omega)

theorem head_formatInt (value : Int) :
    ∃ first rest, formatInt value = first :: rest ∧
      (isDigit first ∨ first = 0x2D) := by
  obtain ⟨first, rest, heq, hdigit, _⟩ := head_formatUint value.natAbs
  unfold formatInt
  by_cases hnegative : value < 0
  · exact ⟨0x2D, formatUint value.natAbs, by rw [if_pos hnegative], .inr rfl⟩
  · exact ⟨first, rest, by rw [if_neg hnegative, heq], .inl hdigit⟩

theorem Printable.head {depth : Nat} {value : Value}
    (hvalue : Printable depth value) :
    ∃ first rest, value.print = first :: rest ∧
      isSpace first = false ∧ first ≠ 0x5D := by
  cases hvalue with
  | null => exact ⟨_, _, rfl, by decide, by decide⟩
  | bool flag => cases flag <;> exact ⟨_, _, rfl, by decide, by decide⟩
  | number value =>
      obtain ⟨first, rest, heq, hfirst⟩ := head_formatInt value
      refine ⟨first, rest, heq, ?_⟩
      rcases hfirst with hdigit | rfl
      · simp only [isDigit, Bool.and_eq_true, decide_eq_true_eq,
          UInt8.le_iff_toNat_le, UInt8.reduceToNat] at hdigit
        simp only [isSpace, Bool.or_eq_false_iff, decide_eq_false_iff_not,
          ne_eq, ← UInt8.toNat_inj, UInt8.reduceToNat]
        omega
      · decide
  | string text => exact ⟨_, _, rfl, by decide, by decide⟩
  | array hitems => exact ⟨_, _, rfl, by decide, by decide⟩
  | object hmembers => exact ⟨_, _, rfl, by decide, by decide⟩

theorem endsNumber_cons {byte : UInt8} (hdigit : isDigit byte = false)
    (hpoint : byte ≠ 0x2E) (hlower : byte ≠ 0x65) (hupper : byte ≠ 0x45)
    (rest : Bytes) : EndsNumber (byte :: rest) := by
  intro other tail heq
  rw [← (List.cons.inj heq).1]
  exact ⟨hdigit, hpoint, hlower, hupper⟩

theorem endsNumber_nil : EndsNumber [] := by
  intro byte tail heq
  contradiction

/-- `parse` reads back each listed value wherever a number may end. -/
def ReadsBack (parse : Bytes → Option (Value × Bytes)) (value : Value) : Prop :=
  ∀ rest, EndsNumber rest → parse (value.print ++ rest) = some (value.coerce, rest)

theorem parseItems_print {parse : Bytes → Option (Value × Bytes)}
    {items : List Value} (hitems : ∀ item ∈ items, ReadsBack parse item)
    (hnonempty : items ≠ []) (fuel : Nat) (hfuel : items.length ≤ fuel)
    (rest : Bytes) :
    parseItems parse fuel (Value.printItems items ++ rest) =
      some (Value.coerceItems items, rest) := by
  induction items generalizing fuel with
  | nil => contradiction
  | cons item items ih =>
      obtain ⟨fuel, rfl⟩ : ∃ smaller, fuel = smaller + 1 :=
        ⟨fuel - 1, by simp only [List.length_cons] at hfuel; omega⟩
      have hitem := hitems item List.mem_cons_self
      cases items with
      | nil =>
          have hread := hitem (0x5D :: rest)
            (endsNumber_cons (by decide) (by decide) (by decide) (by decide) rest)
          simp [Value.printItems, Value.coerceItems, parseItems, hread,
            skipSpace_cons 0x5D (by decide)]
      | cons next items =>
          have htail := ih (fun other hmem => hitems other (List.mem_cons_of_mem _ hmem))
            (by simp) fuel (by simpa using hfuel)
          have hread := hitem (0x2C :: (Value.printItems (next :: items) ++ rest))
            (endsNumber_cons (by decide) (by decide) (by decide) (by decide) _)
          rw [Value.printItems, List.append_assoc, List.cons_append, parseItems, hread]
          simp only [skipSpace_cons 0x2C (by decide), htail,
            Option.map_some, Value.coerceItems]

theorem parseMember_print {parse : Bytes → Option (Value × Bytes)}
    (key : GoString) {value : Value} (hvalue : ReadsBack parse value)
    (rest : Bytes) (hrest : EndsNumber rest) :
    parseMember parse (quote key ++ 0x3A :: (value.print ++ rest)) =
      some ((toValid key, value.coerce), rest) := by
  have hquote : quote key ++ 0x3A :: (value.print ++ rest) =
      0x22 :: (quoteBody key ++ 0x22 :: 0x3A :: (value.print ++ rest)) := by
    simp [quote]
  rw [hquote, parseMember, skipSpace_cons _ (by decide)]
  simp only [unquote_quoteBody, skipSpace_cons 0x3A (by decide),
    hvalue rest hrest, Option.map_some]

theorem parseMembers_print {parse : Bytes → Option (Value × Bytes)}
    {members : List (GoString × Value)}
    (hmembers : ∀ member ∈ members, ReadsBack parse member.2)
    (hnonempty : members ≠ []) (fuel : Nat) (hfuel : members.length ≤ fuel)
    (rest : Bytes) :
    parseMembers parse fuel (Value.printMembers members ++ rest) =
      some (Value.coerceMembers members, rest) := by
  induction members generalizing fuel with
  | nil => contradiction
  | cons member members ih =>
      obtain ⟨fuel, rfl⟩ : ∃ smaller, fuel = smaller + 1 :=
        ⟨fuel - 1, by simp only [List.length_cons] at hfuel; omega⟩
      obtain ⟨key, value⟩ := member
      have hvalue : ReadsBack parse value := hmembers _ List.mem_cons_self
      cases members with
      | nil =>
          have hread := parseMember_print key hvalue (0x7D :: rest)
            (endsNumber_cons (by decide) (by decide) (by decide) (by decide) rest)
          simp [Value.printMembers, Value.coerceMembers, parseMembers, hread,
            skipSpace_cons 0x7D (by decide)]
      | cons next members =>
          have htail := ih (fun other hmem => hmembers other (List.mem_cons_of_mem _ hmem))
            (by simp) fuel (by simpa using hfuel)
          have hread := parseMember_print key hvalue
            (0x2C :: (Value.printMembers (next :: members) ++ rest))
            (endsNumber_cons (by decide) (by decide) (by decide) (by decide) _)
          have hprint :
              Value.printMembers ((key, value) :: next :: members) ++ rest =
                quote key ++ 0x3A :: (value.print ++
                  0x2C :: (Value.printMembers (next :: members) ++ rest)) := by
            simp [Value.printMembers]
          rw [hprint, parseMembers, hread]
          simp only [skipSpace_cons 0x2C (by decide), htail,
            Option.map_some, Value.coerceMembers]

theorem length_le_printItems (items : List Value) :
    items.length ≤ (Value.printItems items).length := by
  induction items with
  | nil => simp
  | cons item items ih =>
      cases items with
      | nil => simp [Value.printItems]
      | cons next items =>
          simp only [Value.printItems, List.length_cons, List.length_append] at *
          omega

theorem length_le_printMembers (members : List (GoString × Value)) :
    members.length ≤ (Value.printMembers members).length := by
  induction members with
  | nil => simp
  | cons member members ih =>
      cases members with
      | nil => simp [Value.printMembers]; omega
      | cons next members =>
          simp only [Value.printMembers, List.length_cons, List.length_append] at *
          omega

theorem parseArray_print {parse : Bytes → Option (Value × Bytes)}
    {depth : Nat} {items : List Value}
    (hprintable : ∀ item ∈ items, Printable depth item)
    (hitems : ∀ item ∈ items, ReadsBack parse item) (rest : Bytes) :
    parseArray parse (Value.printItems items ++ rest) =
      some (.array (Value.coerceItems items), rest) := by
  cases items with
  | nil =>
      rw [Value.printItems, List.singleton_append, parseArray,
        skipSpace_cons _ (by decide)]
      rfl
  | cons item items =>
      obtain ⟨first, tail, heq, hspace, hclose⟩ :=
        (hprintable item List.mem_cons_self).head
      have hparse := parseItems_print hitems (by simp)
        (Value.printItems (item :: items) ++ rest).length
        (by rw [List.length_append]
            exact Nat.le_add_right_of_le (length_le_printItems _)) rest
      obtain ⟨more, hmore⟩ : ∃ more,
          Value.printItems (item :: items) ++ rest = first :: more := by
        cases items with
        | nil => exact ⟨tail ++ [0x5D] ++ rest, by simp [Value.printItems, heq]⟩
        | cons next items =>
            exact ⟨tail ++ 0x2C :: Value.printItems (next :: items) ++ rest, by
              simp [Value.printItems, heq]⟩
      rw [hmore] at hparse ⊢
      rw [parseArray, skipSpace_cons _ hspace]
      split
      · rename_i hcons
        exact absurd (List.cons.inj hcons).1 hclose
      · rw [hparse]
        rfl

theorem parseObject_print {parse : Bytes → Option (Value × Bytes)}
    {members : List (GoString × Value)}
    (hmembers : ∀ member ∈ members, ReadsBack parse member.2) (rest : Bytes) :
    parseObject parse (Value.printMembers members ++ rest) =
      some (.object (Value.coerceMembers members), rest) := by
  cases members with
  | nil =>
      rw [Value.printMembers, List.singleton_append, parseObject,
        skipSpace_cons _ (by decide)]
      rfl
  | cons member members =>
      have hparse := parseMembers_print hmembers (by simp)
        (Value.printMembers (member :: members) ++ rest).length
        (by rw [List.length_append]
            exact Nat.le_add_right_of_le (length_le_printMembers _)) rest
      obtain ⟨more, hmore⟩ : ∃ more,
          Value.printMembers (member :: members) ++ rest = 0x22 :: more := by
        cases members with
        | nil => exact ⟨_, by simp [Value.printMembers, quote]; rfl⟩
        | cons next members => exact ⟨_, by simp [Value.printMembers, quote]; rfl⟩
      rw [hmore] at hparse ⊢
      rw [parseObject, skipSpace_cons _ (by decide)]
      change Option.map _ (parseMembers parse (0x22 :: more).length (0x22 :: more)) = _
      rw [hparse]
      rfl

theorem parseLiteral_number (value : Int) {rest : Bytes}
    (hrest : EndsNumber rest) :
    parseLiteral (formatInt value ++ rest) =
      some (.number (formatInt value), rest) := by
  obtain ⟨first, tail, heq, hfirst⟩ := head_formatInt value
  have hlex := lexNumber_formatInt value hrest
  have hletter : first ≠ 0x6E ∧ first ≠ 0x74 ∧ first ≠ 0x66 := by
    rcases hfirst with hdigit | rfl
    · refine ⟨?_, ?_, ?_⟩ <;> rintro rfl <;> exact absurd hdigit (by decide)
    · decide
  unfold parseLiteral
  rw [hlex]
  simp [heq, Ne.symm hletter.1, Ne.symm hletter.2.1, Ne.symm hletter.2.2]

theorem parseValue_print {depth : Nat} {value : Value}
    (hvalue : Printable depth value) : ReadsBack (parseValue depth) value := by
  induction hvalue with
  | @null depth =>
      intro rest _
      cases depth <;>
        simp [Value.print, Value.coerce, parseValue, parseLiteral, skipSpace, isSpace]
  | @bool depth flag =>
      intro rest _
      cases depth <;> cases flag <;>
        simp [Value.print, Value.coerce, parseValue, parseLiteral, skipSpace, isSpace]
  | @number depth value =>
      intro rest hrest
      obtain ⟨first, tail, heq, hspace, _⟩ := (Printable.number value : Printable 0 _).head
      obtain ⟨first', tail', heq', hfirst⟩ := head_formatInt value
      have hparse := parseLiteral_number value hrest
      have hprint : Value.print (.number (formatInt value)) = formatInt value := rfl
      rw [hprint] at heq
      obtain ⟨rfl, rfl⟩ := List.cons.inj (heq.symm.trans heq')
      have hother : first ≠ 0x22 ∧ first ≠ 0x5B ∧ first ≠ 0x7B := by
        rcases hfirst with hdigit | rfl
        · refine ⟨?_, ?_, ?_⟩ <;> rintro rfl <;> exact absurd hdigit (by decide)
        · decide
      rw [hprint, heq, List.cons_append] at *
      cases depth <;>
        simp [parseValue, skipSpace_cons _ hspace, hother, hparse, Value.coerce]
  | @string depth text =>
      intro rest _
      have hquote : Value.print (.string text) ++ rest =
          0x22 :: (quoteBody text ++ 0x22 :: rest) := by
        simp [Value.print, quote]
      rw [hquote]
      cases depth <;>
        simp [parseValue, skipSpace_cons 0x22 (by decide),
          unquote_quoteBody, Value.coerce]
  | @array depth items hitems ih =>
      intro rest _
      simp only [Value.print, List.cons_append, parseValue,
        skipSpace_cons 0x5B (by decide), Value.coerce]
      exact parseArray_print hitems ih rest
  | @object depth members hmembers ih =>
      intro rest _
      simp only [Value.print, List.cons_append, parseValue,
        skipSpace_cons 0x7B (by decide), Value.coerce]
      exact parseObject_print ih rest

theorem parse_print {value : Value} (hvalue : Printable maxNestingDepth value) :
    parse value.print = some value.coerce := by
  have hread := parseValue_print hvalue [] endsNumber_nil
  rw [List.append_nil] at hread
  simp [parse, hread, skipSpace]

theorem parse_print_newline {value : Value} (hvalue : Printable maxNestingDepth value) :
    parse (value.print ++ [0x0A]) = some value.coerce := by
  have hends : EndsNumber [0x0A] :=
    endsNumber_cons (by decide) (by decide) (by decide) (by decide) []
  simp [parse, parseValue_print hvalue [0x0A] hends, skipSpace, isSpace]

end SimonMQ.Go.Json
