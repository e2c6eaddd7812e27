import SimonMQ.Model.SubPolicy

namespace SimonMQ.Dist

open SimonMQ.Go
open SimonMQ.Go.Json
open SimonMQ.Go.Utf8

/-! The replicated log's entries: one serialized storage mutation each. -/

inductive CommandType
  | createQueue
  | deleteQueue
  | putSubPolicy
  | deleteSubPolicy
  | enqueue
  | ack
  | unknown (code : UInt8)
  deriving DecidableEq, Repr

namespace CommandType

def ofCode (code : UInt8) : CommandType :=
  if code = 1 then .createQueue
  else if code = 2 then .deleteQueue
  else if code = 3 then .putSubPolicy
  else if code = 4 then .deleteSubPolicy
  else if code = 5 then .enqueue
  else if code = 6 then .ack
  else .unknown code

def toCode : CommandType → UInt8
  | .createQueue => 1
  | .deleteQueue => 2
  | .putSubPolicy => 3
  | .deleteSubPolicy => 4
  | .enqueue => 5
  | .ack => 6
  | .unknown code => code

end CommandType

structure Command where
  type : CommandType
  queueName : GoString
  msgID : GoString
  payload : GoString
  subName : GoString
  policy : SubPolicy
  subNames : List GoString
  subList : GoMap SubPolicy

namespace Command

def zero : Command where
  type := .ofCode 0
  queueName := []
  msgID := []
  payload := []
  subName := []
  policy := .zero
  subNames := []
  subList := ∅

def newCreateQueue (queueName : GoString) : Command :=
  { zero with type := .createQueue, queueName }

def newDeleteQueue (queueName : GoString) : Command :=
  { zero with type := .deleteQueue, queueName }

def newPutSubPolicy (queueName : GoString) (policy : SubPolicy) : Command :=
  { zero with type := .putSubPolicy, queueName, policy }

def newDeleteSubPolicy (queueName subName : GoString) : Command :=
  { zero with type := .deleteSubPolicy, queueName, subName }

def newEnqueue (queueName msgID payload : GoString)
    (subList : GoMap SubPolicy) : Command :=
  { zero with type := .enqueue, queueName, msgID, payload, subList }

def newAck (queueName msgID : GoString) (subNames : List GoString) : Command :=
  { zero with type := .ack, queueName, msgID, subNames }

def fields : List (StructField Command) :=
  [ .uint8 (lit "Type") (fun cmd => cmd.type.toCode)
      fun cmd code => { cmd with type := .ofCode code },
    .string (lit "QueueName") queueName
      fun cmd text => { cmd with queueName := text },
    (StructField.string (lit "MsgId") msgID
      fun cmd text => { cmd with msgID := text }).omitWhen
        fun cmd => cmd.msgID.isEmpty,
    (StructField.string (lit "Payload") payload
      fun cmd text => { cmd with payload := text }).omitWhen
        fun cmd => cmd.payload.isEmpty,
    (StructField.string (lit "SubName") subName
      fun cmd text => { cmd with subName := text }).omitWhen
        fun cmd => cmd.subName.isEmpty,
    (StructField.struct (lit "Policy") SubPolicy.fields policy
      fun cmd policy => { cmd with policy }).omitWhen
        fun cmd => cmd.policy = .zero,
    (StructField.strings (lit "SubNames") subNames
      fun cmd subNames => { cmd with subNames }).omitWhen
        fun cmd => cmd.subNames.isEmpty,
    (StructField.map (lit "SubList") SubPolicy.fields .zero subList
      fun cmd subList => { cmd with subList }).omitWhen
        fun cmd => cmd.subList.len = 0 ]

end Command

inductive CommandError
  | emptyEntry
  | malformedJson
  | emptyQueueName (type : CommandType)
  | emptySubscriberName (type : CommandType)
  | emptyMessageID (type : CommandType)
  | unknownType (code : UInt8)
  deriving DecidableEq, Repr

namespace Command

/-- `validate`: the first structural defect, if any. -/
def validate (cmd : Command) : Option CommandError :=
  if cmd.queueName.isEmpty then some (.emptyQueueName cmd.type)
  else
    match cmd.type with
    | .createQueue => none
    | .deleteQueue => none
    | .putSubPolicy =>
        if cmd.policy.subName.isEmpty then some (.emptySubscriberName .putSubPolicy)
        else none
    | .deleteSubPolicy =>
        if cmd.subName.isEmpty then some (.emptySubscriberName .deleteSubPolicy)
        else none
    | .enqueue => if cmd.msgID.isEmpty then some (.emptyMessageID .enqueue) else none
    | .ack => if cmd.msgID.isEmpty then some (.emptyMessageID .ack) else none
    | .unknown code => some (.unknownType code)

def encode (cmd : Command) : Except CommandError Bytes :=
  match cmd.validate with
  | some err => .error err
  | none => .ok (marshal fields cmd)

def decode (data : Bytes) : Except CommandError Command :=
  if data.isEmpty then .error .emptyEntry
  else
    match unmarshal fields zero data with
    | none => .error .malformedJson
    | some cmd =>
        match cmd.validate with
        | some err => .error err
        | none => .ok cmd

/-- What a command becomes on its way through the log. -/
def coerce (cmd : Command) : Command where
  type := .ofCode cmd.type.toCode
  queueName := toValid cmd.queueName
  msgID := toValid cmd.msgID
  payload := toValid cmd.payload
  subName := toValid cmd.subName
  policy := cmd.policy.coerce
  subNames := cmd.subNames.map toValid
  subList := coerceMap SubPolicy.coerce cmd.subList

structure Valid (cmd : Command) : Prop where
  queueName : Utf8.Valid cmd.queueName
  msgID : Utf8.Valid cmd.msgID
  payload : Utf8.Valid cmd.payload
  subName : Utf8.Valid cmd.subName
  policy : cmd.policy.Valid
  subNames : ∀ name ∈ cmd.subNames, Utf8.Valid name
  subList : ∀ name policy, cmd.subList.lookup name = some policy →
    Utf8.Valid name ∧ policy.Valid

/-! A command and its JSON form. -/

theorem intoStruct_coerce (cmd : Command) :
    intoStruct fields (structValue fields cmd).coerce zero = some cmd.coerce := by
  have hnames : WellNamed fields := by decide +kernel
  rw [intoStruct_coerce_carry hnames, fields]
  refine carry_cons (StructField.decode_uint8 _ _ _ cmd _) ?_
  refine carry_cons (StructField.decode_string _ _ _ cmd _) ?_
  refine carry_cons (StructField.carry_omitWhen
    (StructField.decode_string _ _ _ cmd _) ?_) ?_
  · simp +contextual [zero]
  refine carry_cons (StructField.carry_omitWhen
    (StructField.decode_string _ _ _ cmd _) ?_) ?_
  · simp +contextual [zero]
  refine carry_cons (StructField.carry_omitWhen
    (StructField.decode_string _ _ _ cmd _) ?_) ?_
  · simp +contextual [zero]
  refine carry_cons (StructField.carry_omitWhen
    (StructField.decode_struct _ _ cmd.policy.intoStruct_coerce) ?_) ?_
  · simp +contextual [zero, SubPolicy.coerce_of_valid SubPolicy.valid_zero]
  refine carry_cons (StructField.carry_omitWhen
    (StructField.decode_strings _ _ _ cmd _) ?_) ?_
  · simp +contextual [zero]
  refine carry_cons (StructField.carry_omitWhen
    (StructField.decode_map _ SubPolicy.intoStruct_coerce _ cmd rfl) ?_) ?_
  · intro hempty
    have hsubs : cmd.subList = ∅ := by
      apply Finmap.ext_lookup
      simpa [GoMap.len_eq_zero_iff] using hempty
    simp [hsubs, zero, coerceMap_empty]
  rfl

theorem ofCode_toCode_of_validate {cmd : Command} (hvalid : cmd.validate = none) :
    CommandType.ofCode cmd.type.toCode = cmd.type := by
  unfold validate at hvalid
  split at hvalid
  · contradiction
  · cases htype : cmd.type with
    | unknown code => simp [htype] at hvalid
    | _ => rfl

theorem validate_coerce {cmd : Command} (hvalid : cmd.validate = none) :
    cmd.coerce.validate = none := by
  rw [← hvalid]
  simp only [validate, coerce, isEmpty_toValid, SubPolicy.coerce,
    ofCode_toCode_of_validate hvalid]

theorem decode_encode {cmd : Command} {data : Bytes} (hencode : cmd.encode = .ok data) :
    decode data = .ok cmd.coerce := by
  unfold encode at hencode
  split at hencode
  · contradiction
  rename_i hvalid
  cases hencode
  have hround : unmarshal fields zero (marshal fields cmd) = some cmd.coerce := by
    rw [unmarshal_marshal (by decide)]
    exact cmd.intoStruct_coerce
  have hnonempty : (marshal fields cmd).isEmpty = false := by
    simp [marshal, structValue, Value.print]
  simp [decode, hnonempty, hround, validate_coerce hvalid]

theorem valid_zero : zero.Valid where
  queueName := valid_nil
  msgID := valid_nil
  payload := valid_nil
  subName := valid_nil
  policy := SubPolicy.valid_zero
  subNames := by simp [zero]
  subList := by simp [zero]

theorem valid_of_decode {data : Bytes} {cmd : Command}
    (hdecode : decode data = .ok cmd) : cmd.Valid := by
  unfold decode at hdecode
  split at hdecode
  · contradiction
  split at hdecode
  · contradiction
  rename_i found hfound
  split at hdecode
  · contradiction
  cases hdecode
  obtain ⟨json, hjson, hinto⟩ := Option.bind_eq_some_iff.mp hfound
  refine intoStruct_preserves (P := Valid) ?_ (allValid_of_parse hjson) valid_zero hinto
  intro field hmem json current next hjson hcurrent hstore
  simp only [fields, List.mem_cons, List.not_mem_nil, or_false] at hmem
  rcases hmem with rfl | rfl | rfl | rfl | rfl | rfl | rfl | rfl
  · obtain ⟨code, _, rfl⟩ := Option.map_eq_some_iff.mp hstore
    exact { hcurrent with }
  · obtain ⟨text, htext, rfl⟩ := Option.map_eq_some_iff.mp hstore
    exact { hcurrent with
      queueName := valid_of_intoString hjson hcurrent.queueName htext }
  · obtain ⟨text, htext, rfl⟩ := Option.map_eq_some_iff.mp hstore
    exact { hcurrent with
      msgID := valid_of_intoString hjson hcurrent.msgID htext }
  · obtain ⟨text, htext, rfl⟩ := Option.map_eq_some_iff.mp hstore
    exact { hcurrent with
      payload := valid_of_intoString hjson hcurrent.payload htext }
  · obtain ⟨text, htext, rfl⟩ := Option.map_eq_some_iff.mp hstore
    exact { hcurrent with
      subName := valid_of_intoString hjson hcurrent.subName htext }
  · obtain ⟨policy, hpolicy, rfl⟩ := Option.map_eq_some_iff.mp hstore
    exact { hcurrent with
      policy := SubPolicy.valid_of_intoStruct hjson hcurrent.policy hpolicy }
  · obtain ⟨names, hnames, rfl⟩ := Option.map_eq_some_iff.mp hstore
    exact { hcurrent with subNames := valid_of_intoStrings hjson hnames }
  · obtain ⟨subs, hsubs, rfl⟩ := Option.map_eq_some_iff.mp hstore
    refine { hcurrent with subList := ?_ }
    refine intoMap_preserves
      (P := fun name policy => Utf8.Valid name ∧ SubPolicy.Valid policy)
      ?_ hjson hcurrent.subList hsubs
    intro name json policy hname hjson hpolicy
    exact ⟨hname, SubPolicy.valid_of_intoStruct hjson SubPolicy.valid_zero hpolicy⟩

end Command

end SimonMQ.Dist
