import SimonMQ.Go.JsonCodec

namespace SimonMQ

open SimonMQ.Go
open SimonMQ.Go.Json
open SimonMQ.Go.Utf8

/-! The subscriber policy, which `durable-mq/model` and `dist-mq/model` declare
identically. -/

structure SubPolicy where
  subName : GoString
  subURL : GoString
  numberOfRetries : Int64
  deriving DecidableEq, Repr

/-- The subscriber of the sample runs. -/
def billingPolicy (numberOfRetries : Int64) : SubPolicy where
  subName := lit "billing"
  subURL := lit "http://billing"
  numberOfRetries

namespace SubPolicy

def zero : SubPolicy where
  subName := []
  subURL := []
  numberOfRetries := 0

def fields : List (StructField SubPolicy) :=
  [ .string (lit "SubName") subName fun policy text => { policy with subName := text },
    .string (lit "SubURL") subURL fun policy text => { policy with subURL := text },
    .int (lit "NumberOfRetries") numberOfRetries fun policy count =>
      { policy with numberOfRetries := count } ]

def coerce (policy : SubPolicy) : SubPolicy :=
  { policy with
    subName := toValid policy.subName
    subURL := toValid policy.subURL }

structure Valid (policy : SubPolicy) : Prop where
  subName : Utf8.Valid policy.subName
  subURL : Utf8.Valid policy.subURL

theorem coerce_of_valid {policy : SubPolicy} (hvalid : policy.Valid) :
    policy.coerce = policy := by
  rw [coerce, flatten_runes_of_valid hvalid.subName,
    flatten_runes_of_valid hvalid.subURL]

theorem valid_coerce (policy : SubPolicy) : policy.coerce.Valid :=
  ⟨valid_toValid _, valid_toValid _⟩

theorem valid_zero : zero.Valid := ⟨valid_nil, valid_nil⟩

theorem intoStruct_coerce (policy : SubPolicy) :
    intoStruct fields (structValue fields policy).coerce zero = some policy.coerce := by
  have hnames : WellNamed fields := by decide +kernel
  rw [Json.intoStruct_coerce hnames]
  simp [fields, StructField.string, StructField.int, coerce, zero]

theorem valid_of_intoStruct {json : Value} (hjson : json.AllValid)
    {old policy : SubPolicy} (hold : old.Valid)
    (hinto : intoStruct fields json old = some policy) : policy.Valid := by
  refine intoStruct_preserves (P := Valid) ?_ hjson hold hinto
  intro field hmem json current next hjson hcurrent hdecode
  simp only [fields, List.mem_cons, List.not_mem_nil, or_false] at hmem
  rcases hmem with rfl | rfl | rfl
  · obtain ⟨text, htext, rfl⟩ := Option.map_eq_some_iff.mp hdecode
    exact ⟨valid_of_intoString hjson hcurrent.subName htext, hcurrent.subURL⟩
  · obtain ⟨text, htext, rfl⟩ := Option.map_eq_some_iff.mp hdecode
    exact ⟨hcurrent.subName, valid_of_intoString hjson hcurrent.subURL htext⟩
  · obtain ⟨count, _, rfl⟩ := Option.map_eq_some_iff.mp hdecode
    exact ⟨hcurrent.subName, hcurrent.subURL⟩

end SubPolicy

def encodeSubPolicy (policy : SubPolicy) : Bytes := marshal SubPolicy.fields policy

def decodeSubPolicy (bytes : Bytes) : Option SubPolicy :=
  unmarshal SubPolicy.fields SubPolicy.zero bytes

theorem decodeSubPolicy_encodeSubPolicy (policy : SubPolicy) :
    decodeSubPolicy (encodeSubPolicy policy) = some policy.coerce := by
  rw [decodeSubPolicy, encodeSubPolicy,
    unmarshal_marshal (by decide)]
  exact policy.intoStruct_coerce

/-- Every policy is stored under the name it carries. -/
def KeyedByName (subList : GoMap SubPolicy) : Prop :=
  ∀ name policy, subList.lookup name = some policy → policy.subName = name

instance (subList : GoMap SubPolicy) : Decidable (KeyedByName subList) :=
  decidable_of_iff
    (∀ name ∈ subList.keys, ∀ policy ∈ subList.lookup name, policy.subName = name)
    ⟨fun h name policy hpolicy =>
        h name (Finmap.mem_keys.mpr (Finmap.mem_of_lookup_eq_some hpolicy)) policy hpolicy,
      fun h name _ policy hpolicy => h name policy hpolicy⟩

theorem keyedByName_empty : KeyedByName ∅ := by
  simp [KeyedByName]

theorem KeyedByName.insert {policies : GoMap SubPolicy} (hkeyed : KeyedByName policies)
    (policy : SubPolicy) : KeyedByName (policies.insert policy.subName policy) := by
  intro name other hother
  rw [GoMap.lookup_insert_eq] at hother
  split_ifs at hother with hname
  · cases hother
    exact hname.symm
  · exact hkeyed name other hother

theorem KeyedByName.erase {policies : GoMap SubPolicy} (hkeyed : KeyedByName policies)
    (subName : GoString) : KeyedByName (policies.erase subName) := by
  intro name other hother
  rw [GoMap.lookup_erase_eq] at hother
  split_ifs at hother
  exact hkeyed name other hother

end SimonMQ
