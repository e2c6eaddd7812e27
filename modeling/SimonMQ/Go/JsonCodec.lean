import SimonMQ.Go.Json
import SimonMQ.Go.Map

namespace SimonMQ.Go.Json

open SimonMQ.Go.Utf8

/-! Typed values.  A struct is described once by its fields; marshalling writes
them in order, and unmarshalling stores into an existing value, as Go does. -/

def intoString : Value → GoString → Option GoString
  | .string text, _ => some text
  | .null, old => some old
  | _, _ => none

def intoInt : Value → Int64 → Option Int64
  | .number literal, _ =>
      match parseInt literal with
      | .ok value => some (Int64.ofInt value)
      | .error _ => none
  | .null, old => some old
  | _, _ => none

def intoUint64 : Value → UInt64 → Option UInt64
  | .number literal, _ =>
      match parseUint literal with
      | .ok value => some (UInt64.ofNat value)
      | .error _ => none
  | .null, old => some old
  | _, _ => none

def intoUint8 : Value → UInt8 → Option UInt8
  | .number literal, _ =>
      match parseUint literal with
      | .ok value => if value < 256 then some (UInt8.ofNat value) else none
      | .error _ => none
  | .null, old => some old
  | _, _ => none

/-- A JSON object extends an existing map, each element starting from zero. -/
def intoMap {V : Type} (element : Value → V → Option V) (zero : V) :
    Value → GoMap V → Option (GoMap V)
  | .object members, old =>
      members.foldlM (fun (m : GoMap V) member =>
        (element member.2 zero).map fun value => m.insert member.1 value) old
  | .null, _ => some ∅
  | _, _ => none

/-- A JSON array replaces a slice, each element starting from zero.  (`encoding/json`
stores into the cells that the old slice still has behind its new length; here they are
taken as zero, as they are in a slice that starts out nil.) -/
def intoSlice {V : Type} (element : Value → V → Option V) (zero : V) :
    Value → List V → Option (List V)
  | .array items, _ => items.mapM fun item => element item zero
  | .null, _ => some []
  | _, _ => none

/-- One struct field: its JSON key, when `omitempty` or `omitzero` leaves it
out, and how it is written and stored. -/
structure StructField (α : Type) where
  name : GoString
  omitted : α → Bool := fun _ => false
  encode : α → Value
  decode : Value → α → Option α
  /-- how deep what is written nests -/
  depth : Nat
  printable : ∀ value, Printable depth (encode value)

/-- `foldName`: the case folding under which a key matches a field name.  Beside
the ASCII letters only U+017F and U+212A fold onto ASCII. -/
def foldName : GoString → GoString
  | 0xC5 :: 0xBF :: rest => 0x53 :: foldName rest
  | 0xE2 :: 0x84 :: 0xAA :: rest => 0x4B :: foldName rest
  | byte :: rest =>
      (if 0x61 ≤ byte ∧ byte ≤ 0x7A then byte - 0x20 else byte) :: foldName rest
  | [] => []

def fieldFor {α : Type} (fields : List (StructField α)) (key : GoString) :
    Option (StructField α) :=
  (fields.find? fun field => field.name = key).or
    (fields.find? fun field => foldName field.name = foldName key)

def storeMember {α : Type} (fields : List (StructField α)) (current : α)
    (member : GoString × Value) : Option α :=
  match fieldFor fields member.1 with
  | none => some current
  | some field => field.decode member.2 current

def intoStruct {α : Type} (fields : List (StructField α)) : Value → α → Option α
  | .object members, old => members.foldlM (storeMember fields) old
  | .null, old => some old
  | _, _ => none

def structValue {α : Type} (fields : List (StructField α)) (value : α) : Value :=
  .object ((fields.filter fun field => !field.omitted value).map fun field =>
    (field.name, field.encode value))

def mapValue {V : Type} (element : V → Value) (m : GoMap V) : Value :=
  .object ((sortedEntries m).map fun entry => (entry.1, element entry.2))

def sliceValue {V : Type} (element : V → Value) (items : List V) : Value :=
  .array (items.map element)

def nesting {α : Type} (fields : List (StructField α)) : Nat :=
  (fields.map StructField.depth).foldr max 0

theorem depth_le_nesting {α : Type} {fields : List (StructField α)} {field : StructField α}
    (hmem : field ∈ fields) : field.depth ≤ nesting fields := by
  induction fields with
  | nil => simp at hmem
  | cons other fields ih =>
      rcases List.mem_cons.mp hmem with rfl | htail
      · exact le_max_left _ _
      · exact (ih htail).trans (le_max_right _ _)

theorem printable_structValue {α : Type} (fields : List (StructField α)) (value : α) :
    Printable (nesting fields + 1) (structValue fields value) := by
  apply Printable.object
  intro member hmem
  obtain ⟨field, hfield, rfl⟩ := List.mem_map.mp hmem
  exact (field.printable value).mono (depth_le_nesting (List.mem_filter.mp hfield).1)

theorem printable_mapValue {V : Type} {encode : V → Value} {depth : Nat}
    (hencode : ∀ value, Printable depth (encode value)) (m : GoMap V) :
    Printable (depth + 1) (mapValue encode m) := by
  apply Printable.object
  intro member hmem
  obtain ⟨entry, _, rfl⟩ := List.mem_map.mp hmem
  exact hencode entry.2

theorem printable_sliceValue {V : Type} {encode : V → Value} (depth : Nat)
    (hencode : ∀ value, Printable depth (encode value)) (items : List V) :
    Printable (depth + 1) (sliceValue encode items) := by
  apply Printable.array
  intro item hmem
  obtain ⟨source, _, rfl⟩ := List.mem_map.mp hmem
  exact hencode source

/-- `json.Marshal` of a struct. -/
def marshal {α : Type} (fields : List (StructField α)) (value : α) : Bytes :=
  (structValue fields value).print

/-- `json.Unmarshal` into a zero struct. -/
def unmarshal {α : Type} (fields : List (StructField α)) (zero : α) (bytes : Bytes) :
    Option α :=
  (parse bytes).bind fun value => intoStruct fields value zero

namespace StructField

variable {α : Type}

def string (name : GoString) (get : α → GoString) (set : α → GoString → α) :
    StructField α where
  name := name
  encode value := .string (get value)
  decode json value := (intoString json (get value)).map (set value)
  depth := 0
  printable _ := .string _

def int (name : GoString) (get : α → Int64) (set : α → Int64 → α) : StructField α where
  name := name
  encode value := .number (formatInt (get value).toInt)
  decode json value := (intoInt json (get value)).map (set value)
  depth := 0
  printable _ := .number _

def uint64 (name : GoString) (get : α → UInt64) (set : α → UInt64 → α) :
    StructField α where
  name := name
  encode value := .number (formatInt (get value).toNat)
  decode json value := (intoUint64 json (get value)).map (set value)
  depth := 0
  printable _ := .number _

def uint8 (name : GoString) (get : α → UInt8) (set : α → UInt8 → α) :
    StructField α where
  name := name
  encode value := .number (formatInt (get value).toNat)
  decode json value := (intoUint8 json (get value)).map (set value)
  depth := 0
  printable _ := .number _

def struct {β : Type} (name : GoString) (fields : List (StructField β))
    (get : α → β) (set : α → β → α) : StructField α where
  name := name
  encode value := structValue fields (get value)
  decode json value := (intoStruct fields json (get value)).map (set value)
  depth := nesting fields + 1
  printable value := printable_structValue fields (get value)

def mapOf {V : Type} (name : GoString) {element : V → Value} {depth : Nat}
    (hprintable : ∀ value, Printable depth (element value)) (into : Value → V → Option V)
    (zero : V) (get : α → GoMap V) (set : α → GoMap V → α) : StructField α where
  name := name
  encode value := mapValue element (get value)
  decode json value := (intoMap into zero json (get value)).map (set value)
  depth := depth + 1
  printable value := printable_mapValue hprintable (get value)

def map {V : Type} (name : GoString) (fields : List (StructField V)) (zero : V)
    (get : α → GoMap V) (set : α → GoMap V → α) : StructField α :=
  mapOf name (printable_structValue fields) (intoStruct fields) zero get set

def strings (name : GoString) (get : α → List GoString)
    (set : α → List GoString → α) : StructField α where
  name := name
  encode value := sliceValue .string (get value)
  decode json value := (intoSlice intoString [] json (get value)).map (set value)
  depth := 1
  printable value := printable_sliceValue 0 (fun text => .string text) (get value)

def structs {V : Type} (name : GoString) (fields : List (StructField V)) (zero : V)
    (get : α → List V) (set : α → List V → α) : StructField α where
  name := name
  encode value := sliceValue (structValue fields) (get value)
  decode json value :=
    (intoSlice (intoStruct fields) zero json (get value)).map (set value)
  depth := nesting fields + 2
  printable value := printable_sliceValue _ (printable_structValue fields) (get value)

/-- The field with `omitempty` or `omitzero`. -/
def omitWhen (field : StructField α) (omitted : α → Bool) : StructField α :=
  { field with omitted := omitted }

end StructField

/-! Round trips.  Every lemma describes what a decoder makes of the coerced form
of what the matching encoder wrote. -/

@[simp] theorem intoString_coerce (text old : GoString) :
    intoString (Value.string text).coerce old = some (toValid text) := rfl

@[simp] theorem intoInt_coerce (value old : Int64) :
    intoInt (Value.number (formatInt value.toInt)).coerce old = some value := by
  have hparse := parseInt_formatInt value.toInt value.le_toInt value.toInt_lt
  simp only [Value.coerce, intoInt, hparse, Int64.ofInt_toInt]

theorem parseUint_formatInt (value : Nat) (hvalue : value < 2 ^ 64) :
    parseUint (formatInt value) = .ok value := by
  have hsign : ¬ (value : Int) < 0 := by omega
  rw [formatInt, if_neg hsign, Int.natAbs_natCast]
  exact parseUint_formatUint value hvalue

@[simp] theorem intoUint64_coerce (value old : UInt64) :
    intoUint64 (Value.number (formatInt value.toNat)).coerce old = some value := by
  have hparse := parseUint_formatInt value.toNat value.toNat_lt
  simp only [Value.coerce, intoUint64, hparse, UInt64.ofNat_toNat]

@[simp] theorem intoUint8_coerce (value old : UInt8) :
    intoUint8 (Value.number (formatInt value.toNat)).coerce old = some value := by
  have hbound : value.toNat < 256 := value.toNat_lt
  have hparse := parseUint_formatInt value.toNat (by omega)
  simp only [Value.coerce, intoUint8, hparse, if_pos hbound, UInt8.ofNat_toNat]

/-- The map with every key coerced and every element changed by `element`. -/
def coerceMap {V : Type} (element : V → V) (m : GoMap V) : GoMap V :=
  GoMap.ofList ((sortedEntries m).map fun entry => (toValid entry.1, element entry.2))

theorem coerceMap_of_valid {V : Type} {element : V → V} {m : GoMap V}
    (hvalid : ∀ key value, m.lookup key = some value →
      Valid key ∧ element value = value) :
    coerceMap element m = m := by
  have hsame : (sortedEntries m).map (fun entry => (toValid entry.1, element entry.2)) =
      sortedEntries m := by
    conv_rhs => rw [← List.map_id (sortedEntries m)]
    apply List.map_congr_left
    intro entry hmem
    obtain ⟨hkey, helement⟩ := hvalid entry.1 entry.2
      ((sortedEntries_enumerates m).lookup_of_mem hmem)
    rw [flatten_runes_of_valid hkey, helement]
    rfl
  rw [coerceMap, hsame]
  exact GoMap.ofList_of_enumerates (sortedEntries_enumerates m)

theorem coerceMap_empty {V : Type} (element : V → V) :
    coerceMap element ∅ = ∅ := by
  apply coerceMap_of_valid
  intro key value hlookup
  simp at hlookup

theorem intoMap_coerce {V : Type} {encode : V → Value}
    {decode : Value → V → Option V} {zero : V} {element : V → V}
    (helement : ∀ value, decode (encode value).coerce zero = some (element value))
    (m : GoMap V) :
    intoMap decode zero (mapValue encode m).coerce ∅ = some (coerceMap element m) := by
  simp only [mapValue, Value.coerce, Value.coerceMembers_eq_map, intoMap, coerceMap]
  generalize (∅ : GoMap V) = initial
  induction sortedEntries m generalizing initial with
  | nil => rfl
  | cons entry entries ih =>
      simp only [List.map_cons, List.foldlM_cons, helement, Option.map_some,
        Option.bind_eq_bind, Option.bind_some, GoMap.ofList_cons]
      exact ih _

theorem intoSlice_coerce {V : Type} {encode : V → Value}
    {decode : Value → V → Option V} (zero : V) {element : V → V}
    (helement : ∀ value, decode (encode value).coerce zero = some (element value))
    (items old : List V) :
    intoSlice decode zero (sliceValue encode items).coerce old =
      some (items.map element) := by
  simp only [sliceValue, Value.coerce, Value.coerceItems_eq_map, intoSlice]
  induction items with
  | nil => rfl
  | cons item items ih =>
      simp only [List.map_cons, List.mapM_cons, helement, ih]
      rfl

/-- The names tell the fields apart, and JSON leaves them as they are. -/
structure WellNamed {α : Type} (fields : List (StructField α)) : Prop where
  nodup : (fields.map StructField.name).Nodup
  ascii : ∀ name ∈ fields.map StructField.name, ∀ byte ∈ name, byte < 0x80

instance {α : Type} (fields : List (StructField α)) : Decidable (WellNamed fields) :=
  decidable_of_iff ((fields.map StructField.name).Nodup ∧
      (fields.map StructField.name).all (fun name => name.all fun byte => byte < 0x80))
    ⟨fun h => ⟨h.1, by simpa using h.2⟩, fun h => ⟨h.nodup, by simpa using h.ascii⟩⟩

theorem fieldFor_name {α : Type} {fields : List (StructField α)}
    (hnames : (fields.map StructField.name).Nodup) {field : StructField α}
    (hmem : field ∈ fields) : fieldFor fields field.name = some field := by
  have hfind : (fields.find? fun other => other.name = field.name) = some field := by
    induction fields with
    | nil => simp at hmem
    | cons other fields ih =>
        rw [List.map_cons, List.nodup_cons] at hnames
        rcases List.mem_cons.mp hmem with rfl | htail
        · simp
        · have hne : other.name ≠ field.name := fun heq =>
            hnames.1 (heq ▸ List.mem_map_of_mem htail)
          rw [List.find?_cons_of_neg (by simpa using hne)]
          exact ih hnames.2 htail
  rw [fieldFor, hfind, Option.some_or]

theorem intoStruct_coerce {α : Type} {fields : List (StructField α)}
    (hnames : WellNamed fields) (value old : α) :
    intoStruct fields (structValue fields value).coerce old =
      (fields.filter fun field => !field.omitted value).foldlM
        (fun current field => field.decode (field.encode value).coerce current)
        old := by
  have hsub : ∀ field ∈ fields.filter (fun field => !field.omitted value),
      field ∈ fields := fun field hmem => (List.mem_filter.mp hmem).1
  simp only [structValue, Value.coerce, Value.coerceMembers_eq_map, intoStruct]
  generalize fields.filter (fun field => !field.omitted value) = written at hsub ⊢
  induction written generalizing old with
  | nil => rfl
  | cons field written ih =>
      have hfield := hsub field List.mem_cons_self
      have hname : toValid field.name = field.name :=
        flatten_runes_of_valid (valid_of_ascii (hnames.ascii _ (List.mem_map_of_mem hfield)))
      simp only [List.map_cons, List.foldlM_cons, storeMember, hname,
        fieldFor_name hnames.nodup hfield]
      congr 1
      funext current
      exact ih current fun other hmem => hsub other (List.mem_cons_of_mem _ hmem)

/-- What a field of `value` makes of `current` on its way through JSON. -/
def StructField.carry {α : Type} (field : StructField α) (value current : α) : Option α :=
  if field.omitted value then some current
  else field.decode (field.encode value).coerce current

theorem StructField.carry_omitWhen {α : Type} {field : StructField α}
    {omitted : α → Bool} {value current next : α}
    (hdecode : field.decode (field.encode value).coerce current = some next)
    (homitted : omitted value = true → next = current) :
    (field.omitWhen omitted).carry value current = some next := by
  unfold carry omitWhen
  split_ifs with hcase
  · rw [homitted hcase]
  · exact hdecode

namespace StructField

variable {α : Type}

theorem decode_string (name : GoString) (get : α → GoString) (set : α → GoString → α)
    (value current : α) :
    (string name get set).decode ((string name get set).encode value).coerce current =
      some (set current (toValid (get value))) := rfl

theorem decode_uint8 (name : GoString) (get : α → UInt8) (set : α → UInt8 → α)
    (value current : α) :
    (uint8 name get set).decode ((uint8 name get set).encode value).coerce current =
      some (set current (get value)) := by
  simp [uint8]

theorem decode_struct (name : GoString) {β : Type} {fields : List (StructField β)}
    {get : α → β} (set : α → β → α) {value current : α} {next : β}
    (hnext : intoStruct fields (structValue fields (get value)).coerce (get current) =
      some next) :
    (struct name fields get set).decode
        ((struct name fields get set).encode value).coerce current =
      some (set current next) := by
  simp [struct, hnext]

theorem decode_strings (name : GoString) (get : α → List GoString)
    (set : α → List GoString → α) (value current : α) :
    (strings name get set).decode ((strings name get set).encode value).coerce current =
      some (set current ((get value).map toValid)) := by
  simp [strings, intoSlice_coerce [] fun text => intoString_coerce text []]

theorem decode_map (name : GoString) {V : Type} {fields : List (StructField V)}
    {zero : V} {element : V → V}
    (helement : ∀ value,
      intoStruct fields (structValue fields value).coerce zero = some (element value))
    {get : α → GoMap V} (set : α → GoMap V → α) (value : α) {current : α}
    (hcurrent : get current = ∅) :
    (map name fields zero get set).decode
        ((map name fields zero get set).encode value).coerce current =
      some (set current (coerceMap element (get value))) := by
  simp [map, mapOf, hcurrent, intoMap_coerce helement]

end StructField

theorem carry_cons {α : Type} {field : StructField α} {fields : List (StructField α)}
    {value current next final : α} (hfield : field.carry value current = some next)
    (hrest : fields.foldlM (fun current field => field.carry value current) next =
      some final) :
    (field :: fields).foldlM (fun current field => field.carry value current) current =
      some final := by
  rw [List.foldlM_cons, hfield]
  exact hrest

theorem intoStruct_coerce_carry {α : Type} {fields : List (StructField α)}
    (hnames : WellNamed fields) (value old : α) :
    intoStruct fields (structValue fields value).coerce old =
      fields.foldlM (fun current field => field.carry value current) old := by
  rw [intoStruct_coerce hnames, List.foldlM_filter]
  congr 1
  funext current field
  unfold StructField.carry
  cases field.omitted value <;> rfl

theorem unmarshal_marshal {α : Type} {fields : List (StructField α)}
    (hdepth : nesting fields < maxNestingDepth) (value zero : α) :
    unmarshal fields zero (marshal fields value) =
      intoStruct fields (structValue fields value).coerce zero := by
  have hprintable := (printable_structValue fields value).mono hdepth
  rw [unmarshal, marshal, parse_print hprintable, Option.bind_some]

theorem unmarshal_marshal_newline {α : Type} {fields : List (StructField α)}
    (hdepth : nesting fields < maxNestingDepth) (value zero : α) :
    unmarshal fields zero (marshal fields value ++ [0x0A]) =
      intoStruct fields (structValue fields value).coerce zero := by
  have hprintable := (printable_structValue fields value).mono hdepth
  rw [unmarshal, marshal, parse_print_newline hprintable, Option.bind_some]

/-! Whatever the input, unmarshalled strings are valid UTF-8. -/

inductive Value.AllValid : Value → Prop
  | null : AllValid .null
  | bool (flag : Bool) : AllValid (.bool flag)
  | number (literal : Bytes) : AllValid (.number literal)
  | string {text : GoString} (htext : Valid text) : AllValid (.string text)
  | array {items : List Value} (hitems : ∀ item ∈ items, AllValid item) :
      AllValid (.array items)
  | object {members : List (GoString × Value)}
      (hkeys : ∀ member ∈ members, Valid member.1)
      (hvalues : ∀ member ∈ members, AllValid member.2) :
      AllValid (.object members)

theorem allValid_of_parseItems {parse : Bytes → Option (Value × Bytes)}
    (hparse : ∀ {bytes value rest}, parse bytes = some (value, rest) → value.AllValid)
    {fuel : Nat} {bytes rest : Bytes} {items : List Value}
    (hitems : parseItems parse fuel bytes = some (items, rest)) :
    ∀ item ∈ items, item.AllValid := by
  fun_induction parseItems parse fuel bytes generalizing items rest with
  | case1 => contradiction
  | case2 => contradiction
  | case3 fuel bytes item tail hitem more hspace ih =>
      obtain ⟨result, hresult, heq⟩ := Option.map_eq_some_iff.mp hitems
      cases heq
      intro other hmem
      rcases List.mem_cons.mp hmem with rfl | htail
      · exact hparse hitem
      · exact ih hresult other htail
  | case4 fuel bytes item tail hitem more hspace =>
      cases hitems
      intro other hmem
      rw [List.mem_singleton.mp hmem]
      exact hparse hitem
  | case5 => contradiction

theorem allValid_of_parseMember {parse : Bytes → Option (Value × Bytes)}
    (hparse : ∀ {bytes value rest}, parse bytes = some (value, rest) → value.AllValid)
    {bytes rest : Bytes} {member : GoString × Value}
    (hmember : parseMember parse bytes = some (member, rest)) :
    Valid member.1 ∧ member.2.AllValid := by
  unfold parseMember at hmember
  split at hmember
  · split at hmember
    · contradiction
    · rename_i hkey
      split at hmember
      · obtain ⟨result, hresult, heq⟩ := Option.map_eq_some_iff.mp hmember
        cases heq
        exact ⟨valid_of_unquote hkey, hparse hresult⟩
      · contradiction
  · contradiction

theorem allValid_of_parseMembers {parse : Bytes → Option (Value × Bytes)}
    (hparse : ∀ {bytes value rest}, parse bytes = some (value, rest) → value.AllValid)
    {fuel : Nat} {bytes rest : Bytes} {members : List (GoString × Value)}
    (hmembers : parseMembers parse fuel bytes = some (members, rest)) :
    ∀ member ∈ members, Valid member.1 ∧ member.2.AllValid := by
  fun_induction parseMembers parse fuel bytes generalizing members rest with
  | case1 => contradiction
  | case2 => contradiction
  | case3 fuel bytes member tail hmember more hspace ih =>
      obtain ⟨result, hresult, heq⟩ := Option.map_eq_some_iff.mp hmembers
      cases heq
      intro other hmem
      rcases List.mem_cons.mp hmem with rfl | htail
      · exact allValid_of_parseMember hparse hmember
      · exact ih hresult other htail
  | case4 fuel bytes member tail hmember more hspace =>
      cases hmembers
      intro other hmem
      rw [List.mem_singleton.mp hmem]
      exact allValid_of_parseMember hparse hmember
  | case5 => contradiction

theorem allValid_of_parseLiteral {bytes rest : Bytes} {value : Value}
    (hvalue : parseLiteral bytes = some (value, rest)) : value.AllValid := by
  unfold parseLiteral at hvalue
  split_ifs at hvalue
  · cases hvalue; exact .null
  · cases hvalue; exact .bool true
  · cases hvalue; exact .bool false
  · obtain ⟨result, _, heq⟩ := Option.map_eq_some_iff.mp hvalue
    cases heq
    exact .number _

theorem allValid_of_parseArray {parse : Bytes → Option (Value × Bytes)}
    (hparse : ∀ {bytes value rest}, parse bytes = some (value, rest) → value.AllValid)
    {bytes rest : Bytes} {value : Value}
    (hvalue : parseArray parse bytes = some (value, rest)) : value.AllValid := by
  unfold parseArray at hvalue
  split at hvalue
  · cases hvalue
    exact .array (by simp)
  · obtain ⟨result, hresult, heq⟩ := Option.map_eq_some_iff.mp hvalue
    cases heq
    exact .array (allValid_of_parseItems hparse hresult)

theorem allValid_of_parseObject {parse : Bytes → Option (Value × Bytes)}
    (hparse : ∀ {bytes value rest}, parse bytes = some (value, rest) → value.AllValid)
    {bytes rest : Bytes} {value : Value}
    (hvalue : parseObject parse bytes = some (value, rest)) : value.AllValid := by
  unfold parseObject at hvalue
  split at hvalue
  · cases hvalue
    exact .object (by simp) (by simp)
  · obtain ⟨result, hresult, heq⟩ := Option.map_eq_some_iff.mp hvalue
    cases heq
    have hall := allValid_of_parseMembers hparse hresult
    exact .object (fun member hmem => (hall member hmem).1)
      (fun member hmem => (hall member hmem).2)

theorem allValid_of_parseValue {depth : Nat} {bytes rest : Bytes} {value : Value}
    (hvalue : parseValue depth bytes = some (value, rest)) : value.AllValid := by
  induction depth generalizing bytes rest value with
  | zero =>
      unfold parseValue at hvalue
      split at hvalue
      · obtain ⟨result, hresult, heq⟩ := Option.map_eq_some_iff.mp hvalue
        cases heq
        exact .string (valid_of_unquote hresult)
      · contradiction
      · contradiction
      · exact allValid_of_parseLiteral hvalue
  | succ depth ih =>
      unfold parseValue at hvalue
      split at hvalue
      · obtain ⟨result, hresult, heq⟩ := Option.map_eq_some_iff.mp hvalue
        cases heq
        exact .string (valid_of_unquote hresult)
      · exact allValid_of_parseArray ih hvalue
      · exact allValid_of_parseObject ih hvalue
      · exact allValid_of_parseLiteral hvalue

theorem allValid_of_parse {bytes : Bytes} {value : Value}
    (hvalue : parse bytes = some value) : value.AllValid := by
  unfold parse at hvalue
  split at hvalue
  · contradiction
  · rename_i hparse
    split_ifs at hvalue
    cases hvalue
    exact allValid_of_parseValue hparse

theorem valid_of_intoString {json : Value} {old text : GoString}
    (hjson : json.AllValid) (hold : Valid old)
    (hinto : intoString json old = some text) : Valid text := by
  cases hjson with
  | string htext => cases hinto; exact htext
  | null => cases hinto; exact hold
  | _ => contradiction

theorem intoStruct_preserves {α : Type} {fields : List (StructField α)} {P : α → Prop}
    (hfields : ∀ field ∈ fields, ∀ json current next, Value.AllValid json →
      P current → field.decode json current = some next → P next)
    {json : Value} (hjson : json.AllValid) {old result : α} (hold : P old)
    (hinto : intoStruct fields json old = some result) : P result := by
  cases hjson with
  | null => cases hinto; exact hold
  | @object members hkeys hvalues =>
      simp only [intoStruct] at hinto
      induction members generalizing old with
      | nil => cases hinto; exact hold
      | cons member members ih =>
          obtain ⟨next, hnext, hrest⟩ := Option.bind_eq_some_iff.mp hinto
          refine ih ?_ (fun other hmem => hkeys other (List.mem_cons_of_mem _ hmem))
            (fun other hmem => hvalues other (List.mem_cons_of_mem _ hmem)) hrest
          unfold storeMember at hnext
          split at hnext
          · cases hnext; exact hold
          · rename_i field hfield
            refine hfields field ?_ member.2 old next
              (hvalues member List.mem_cons_self) hold hnext
            rcases Option.or_eq_some_iff.mp hfield with hexact | ⟨_, hfolded⟩
            · exact List.mem_of_find?_eq_some hexact
            · exact List.mem_of_find?_eq_some hfolded
  | _ => contradiction

theorem intoMap_preserves {V : Type} {element : Value → V → Option V} {zero : V}
    {P : GoString → V → Prop}
    (helement : ∀ key json value, Valid key → Value.AllValid json →
      element json zero = some value → P key value)
    {json : Value} (hjson : json.AllValid) {old result : GoMap V}
    (hold : ∀ key value, old.lookup key = some value → P key value)
    (hinto : intoMap element zero json old = some result) :
    ∀ key value, result.lookup key = some value → P key value := by
  cases hjson with
  | null =>
      cases hinto
      intro key value hlookup
      simp at hlookup
  | @object members hkeys hvalues =>
      simp only [intoMap] at hinto
      induction members generalizing old with
      | nil => cases hinto; exact hold
      | cons member members ih =>
          obtain ⟨next, hnext, hrest⟩ := Option.bind_eq_some_iff.mp hinto
          obtain ⟨value, hvalue, rfl⟩ := Option.map_eq_some_iff.mp hnext
          refine ih ?_ (fun other hmem => hkeys other (List.mem_cons_of_mem _ hmem))
            (fun other hmem => hvalues other (List.mem_cons_of_mem _ hmem)) hrest
          intro key found hlookup
          rw [GoMap.lookup_insert_eq] at hlookup
          split_ifs at hlookup with hkey
          · cases hlookup
            subst hkey
            exact helement _ _ _ (hkeys member List.mem_cons_self)
              (hvalues member List.mem_cons_self) hvalue
          · exact hold key found hlookup
  | _ => contradiction

theorem valid_of_intoStrings {json : Value} {old result : List GoString}
    (hjson : json.AllValid)
    (hinto : intoSlice intoString [] json old = some result) :
    ∀ text ∈ result, Valid text := by
  cases hjson with
  | null => cases hinto; simp
  | @array items hitems =>
      simp only [intoSlice] at hinto
      induction items generalizing result with
      | nil => cases hinto; simp
      | cons item items ih =>
          rw [List.mapM_cons] at hinto
          obtain ⟨first, hfirst, hrest⟩ := Option.bind_eq_some_iff.mp hinto
          obtain ⟨tail, htail, heq⟩ := Option.bind_eq_some_iff.mp hrest
          cases heq
          intro text hmem
          rcases List.mem_cons.mp hmem with rfl | hmem
          · exact valid_of_intoString (hitems item List.mem_cons_self) valid_nil hfirst
          · exact ih (fun other hmem => hitems other (List.mem_cons_of_mem _ hmem))
              htail text hmem
  | _ => contradiction

end SimonMQ.Go.Json
