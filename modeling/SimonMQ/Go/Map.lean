import Mathlib.Algebra.BigOperators.Group.Finset.Piecewise
import Mathlib.Data.Finmap
import Mathlib.Data.List.Sort
import SimonMQ.Go.Binary

namespace SimonMQ.Go

/-! Go maps keyed by strings.  A map has no order of its own: iteration is a
list that enumerates its entries, and `sort.Strings` recovers a fixed order. -/

abbrev GoMap (V : Type) := Finmap (fun _ : GoString => V)

namespace GoMap

variable {V : Type}

theorem lookup_insert_eq (m : GoMap V) (key other : GoString) (value : V) :
    (m.insert key value).lookup other =
      if other = key then some value else m.lookup other := by
  by_cases heq : other = key
  · subst other
    simp
  · simp [heq, Finmap.lookup_insert_of_ne m heq]

theorem lookup_erase_eq (m : GoMap V) (key other : GoString) :
    (m.erase key).lookup other =
      if other = key then none else m.lookup other := by
  by_cases heq : other = key
  · subst other
    simp
  · simp [heq, Finmap.lookup_erase_ne heq]

/-- `len(m)`. -/
def len (m : GoMap V) : Nat := m.keys.card

theorem len_eq_zero_iff (m : GoMap V) :
    len m = 0 ↔ ∀ key, m.lookup key = none := by
  rw [len, Finset.card_eq_zero, Finset.eq_empty_iff_forall_notMem]
  constructor
  · intro hempty key
    exact Finmap.lookup_eq_none.mpr
      (fun hmem => hempty key (Finmap.mem_keys.mpr hmem))
  · intro hnone key hmem
    exact Finmap.lookup_eq_none.mp (hnone key) (Finmap.mem_keys.mp hmem)

/-- The entries that survive `for k, v := range m { if drop { delete(m, k) } }`. -/
def retain (keep : GoString → V → Bool) (m : GoMap V) : GoMap V where
  entries := m.entries.filter fun entry => keep entry.1 entry.2
  nodupKeys := by
    obtain ⟨entries, hnodup⟩ := m
    induction entries using Quotient.inductionOn with
    | h entries =>
        have hfiltered : (entries.filter fun entry => keep entry.1 entry.2).NodupKeys :=
          List.NodupKeys.sublist List.filter_sublist hnodup
        simpa using hfiltered

theorem lookup_retain (keep : GoString → V → Bool) (m : GoMap V)
    (key : GoString) :
    (m.retain keep).lookup key = (m.lookup key).filter (keep key) := by
  apply Option.ext
  intro value
  have hretain := Finmap.mem_lookup_iff (s := m.retain keep) (a := key) (b := value)
  have hsource := Finmap.mem_lookup_iff (s := m) (a := key) (b := value)
  simp only [Option.mem_def] at hretain hsource
  rw [hretain, Option.filter_eq_some_iff, hsource]
  simp [retain]

theorem keys_insert (m : GoMap V) (key : GoString) (value : V) :
    Finmap.keys (m.insert key value) = insert key m.keys := by
  ext other
  rw [Finmap.mem_keys, Finmap.mem_insert, Finset.mem_insert, Finmap.mem_keys]

theorem insert_of_lookup {m : GoMap V} {key : GoString} {value : V}
    (hvalue : m.lookup key = some value) : m.insert key value = m := by
  apply Finmap.ext_lookup
  intro other
  rw [lookup_insert_eq]
  split_ifs with hother
  · rw [hother, hvalue]
  · rfl

theorem erase_of_lookup_none {m : GoMap V} {key : GoString}
    (hnone : m.lookup key = none) : m.erase key = m := by
  apply Finmap.ext_lookup
  intro other
  rw [lookup_erase_eq]
  split_ifs with hother
  · rw [hother, hnone]
  · rfl

theorem lookup_retain_key (m : GoMap V) (keep : GoString → Bool) (key : GoString) :
    (m.retain fun key _ => keep key).lookup key = if keep key then m.lookup key else none := by
  rw [lookup_retain]
  cases keep key <;> cases m.lookup key <;> simp [Option.filter]

def adjust (m : GoMap V) (key : GoString) (change : V → Option V) : GoMap V :=
  match m.lookup key with
  | none => m
  | some value =>
      match change value with
      | none => m.erase key
      | some next => m.insert key next

theorem lookup_adjust (m : GoMap V) (key other : GoString) (change : V → Option V) :
    (m.adjust key change).lookup other =
      if other = key then (m.lookup key).bind change else m.lookup other := by
  unfold adjust
  cases hvalue : m.lookup key with
  | none =>
      split_ifs with hother
      · rw [hother, hvalue]
        rfl
      · rfl
  | some value =>
      dsimp only
      cases hnext : change value with
      | none => simp [lookup_erase_eq, hnext]
      | some next => simp [lookup_insert_eq, hnext]

theorem adjust_adjust (m : GoMap V) (key : GoString) (first second : V → Option V) :
    (m.adjust key first).adjust key second =
      m.adjust key fun value => (first value).bind second := by
  apply Finmap.ext_lookup
  intro other
  simp only [lookup_adjust, if_true, Option.bind_assoc]
  split_ifs <;> rfl

theorem adjust_comm (m : GoMap V) {left right : GoString} (hkeys : left ≠ right)
    (first second : V → Option V) :
    (m.adjust left first).adjust right second =
      (m.adjust right second).adjust left first := by
  apply Finmap.ext_lookup
  intro other
  simp only [lookup_adjust, if_neg hkeys, if_neg hkeys.symm]
  split_ifs with hright hleft
  · exact absurd (hleft.symm.trans hright) hkeys
  · rfl
  · rfl
  · rfl

theorem adjust_insert_of_ne (m : GoMap V) {key other : GoString} (hkeys : key ≠ other)
    (value : V) (change : V → Option V) :
    adjust (m.insert other value) key change = (m.adjust key change).insert other value := by
  apply Finmap.ext_lookup
  intro found
  simp only [lookup_adjust, lookup_insert_eq, if_neg hkeys]
  split_ifs with hkey hother
  · exact absurd (hkey.symm.trans hother) hkeys
  · rfl
  · rfl
  · rfl

theorem adjust_erase (m : GoMap V) (key other : GoString) (change : V → Option V) :
    adjust (m.erase other) key change = (m.adjust key change).erase other := by
  apply Finmap.ext_lookup
  intro found
  rw [lookup_erase_eq, lookup_adjust, lookup_adjust, lookup_erase_eq, lookup_erase_eq]
  by_cases hother : found = other
  · subst hother
    by_cases hkey : found = key
    · subst hkey
      simp
    · simp [hkey]
  · by_cases hkey : found = key
    · subst hkey
      simp [hother]
    · simp [hkey, hother]

def All (P : V → Prop) (m : GoMap V) : Prop :=
  ∀ key value, m.lookup key = some value → P value

theorem all_empty (P : V → Prop) : All P ∅ := by
  simp [All]

theorem All.insert {P : V → Prop} {m : GoMap V} (hall : All P m) (key : GoString)
    {value : V} (hvalue : P value) : All P (m.insert key value) := by
  intro other found hfound
  rw [lookup_insert_eq] at hfound
  split_ifs at hfound
  · cases hfound
    exact hvalue
  · exact hall other found hfound

theorem All.erase {P : V → Prop} {m : GoMap V} (hall : All P m) (key : GoString) :
    All P (m.erase key) := by
  intro other found hfound
  rw [lookup_erase_eq] at hfound
  split_ifs at hfound
  exact hall other found hfound

theorem All.retain {P : V → Prop} {m : GoMap V} (hall : All P m)
    (keep : GoString → V → Bool) : All P (m.retain keep) := by
  intro other found hfound
  rw [lookup_retain, Option.filter_eq_some_iff] at hfound
  exact hall other found hfound.1

/-- A list enumerates a map when ranging over the map can visit its entries in
that order. -/
def Enumerates (entries : List (GoString × V)) (m : GoMap V) : Prop :=
  (entries.map Prod.fst).Nodup ∧
    ∀ key value, (key, value) ∈ entries ↔ m.lookup key = some value

theorem Enumerates.lookup_of_mem {entries : List (GoString × V)} {m : GoMap V}
    (henum : Enumerates entries m) {entry : GoString × V}
    (hmem : entry ∈ entries) : m.lookup entry.1 = some entry.2 :=
  (henum.2 entry.1 entry.2).mp hmem

theorem Enumerates.not_mem_keys {entries : List (GoString × V)} {m : GoMap V}
    (henum : Enumerates entries m) {key : GoString} (hnone : m.lookup key = none) :
    key ∉ entries.map Prod.fst := by
  intro hmem
  obtain ⟨entry, hentry, rfl⟩ := List.mem_map.mp hmem
  have hvalue := henum.lookup_of_mem hentry
  rw [hnone] at hvalue
  contradiction

theorem Enumerates.perm {entries others : List (GoString × V)} {m : GoMap V}
    (henum : Enumerates entries m) (hperm : others.Perm entries) :
    Enumerates others m := by
  refine ⟨(hperm.map Prod.fst).nodup_iff.mpr henum.1, ?_⟩
  intro key value
  rw [hperm.mem_iff, henum.2]

theorem Enumerates.sum_lookup {entries : List (GoString × V)} {m : GoMap V}
    (henum : Enumerates entries m) (weight : V → Nat) (names : Finset GoString) :
    (entries.map fun entry => if entry.1 ∈ names then weight entry.2 else 0).sum =
      ∑ name ∈ names, (m.lookup name).elim 0 weight := by
  have hswap : (entries.map fun entry => if entry.1 ∈ names then weight entry.2 else 0).sum =
      ∑ name ∈ names, (entries.map fun entry =>
        if entry.1 = name then weight entry.2 else 0).sum := by
    clear henum
    induction entries with
    | nil => simp
    | cons entry entries ih => simp [ih, Finset.sum_add_distrib]
  have hzero : ∀ {name : GoString} {part : List (GoString × V)},
      (∀ entry ∈ part, entry.1 ≠ name) →
      (part.map fun entry => if entry.1 = name then weight entry.2 else 0).sum = 0 := by
    intro name part hothers
    apply List.sum_eq_zero
    intro term hterm
    obtain ⟨entry, hentry, rfl⟩ := List.mem_map.mp hterm
    exact if_neg (hothers entry hentry)
  rw [hswap]
  refine Finset.sum_congr rfl fun name _ => ?_
  cases hlookup : m.lookup name with
  | none =>
      refine hzero fun entry hentry hname => ?_
      exact henum.not_mem_keys hlookup (List.mem_map.mpr ⟨entry, hentry, hname⟩)
  | some value =>
      obtain ⟨before, after, rfl⟩ := List.append_of_mem ((henum.2 name value).mpr hlookup)
      have hnodup := henum.1
      rw [List.map_append, List.map_cons, List.nodup_middle, List.nodup_cons,
        ← List.map_append, List.mem_map] at hnodup
      have hbefore : ∀ entry ∈ before, entry.1 ≠ name := fun entry hentry hname =>
        hnodup.1 ⟨entry, List.mem_append_left _ hentry, hname⟩
      have hafter : ∀ entry ∈ after, entry.1 ≠ name := fun entry hentry hname =>
        hnodup.1 ⟨entry, List.mem_append_right _ hentry, hname⟩
      simp [hzero hbefore, hzero hafter]

theorem Enumerates.transfer {W : Type} {R : GoString → V → W → Prop} {m : GoMap V}
    {other : GoMap W}
    (hrel : ∀ key, Option.Rel (R key) (m.lookup key) (other.lookup key))
    {entries : List (GoString × V)} (henum : Enumerates entries m) :
    ∃ others, Enumerates others other ∧
      List.Forall₂ (fun entry found => entry.1 = found.1 ∧ R entry.1 entry.2 found.2)
        entries others := by
  have hpartner : ∀ entry ∈ entries, ∃ found : GoString × W,
      (entry.1 = found.1 ∧ R entry.1 entry.2 found.2) ∧
        other.lookup found.1 = some found.2 := by
    intro entry hmem
    have hentry := hrel entry.1
    rw [henum.lookup_of_mem hmem] at hentry
    cases hvalue : other.lookup entry.1 with
    | none =>
        rw [hvalue] at hentry
        cases hentry
    | some value =>
        rw [hvalue] at hentry
        cases hentry with
        | some hvalues => exact ⟨(entry.1, value), ⟨rfl, hvalues⟩, hvalue⟩
  obtain ⟨others, hpairs, hfound⟩ :
      ∃ others : List (GoString × W),
        List.Forall₂ (fun entry found => entry.1 = found.1 ∧ R entry.1 entry.2 found.2)
          entries others ∧ ∀ found ∈ others, other.lookup found.1 = some found.2 := by
    clear henum
    induction entries with
    | nil => exact ⟨[], .nil, by simp⟩
    | cons entry entries ih =>
        obtain ⟨found, hpair, hlookup⟩ := hpartner entry List.mem_cons_self
        obtain ⟨others, hpairs, hothers⟩ :=
          ih fun entry hmem => hpartner entry (List.mem_cons_of_mem _ hmem)
        exact ⟨found :: others, .cons hpair hpairs, by simpa [hlookup] using hothers⟩
  have hkeys : others.map Prod.fst = entries.map Prod.fst := by
    clear henum hpartner hfound
    induction hpairs with
    | nil => rfl
    | cons hpair _ ih => rw [List.map_cons, List.map_cons, ih, hpair.1]
  refine ⟨others, ⟨by rw [hkeys]; exact henum.1, fun key value => ?_⟩, hpairs⟩
  constructor
  · exact fun hmem => hfound (key, value) hmem
  · intro hvalue
    have hkey : key ∈ others.map Prod.fst := by
      have hentry := hrel key
      rw [hvalue] at hentry
      rw [hkeys]
      cases hsource : m.lookup key with
      | none =>
          rw [hsource] at hentry
          cases hentry
      | some source =>
          exact List.mem_map_of_mem (f := Prod.fst) ((henum.2 key source).mpr hsource)
    obtain ⟨⟨_, found⟩, hmem, rfl⟩ := List.mem_map.mp hkey
    have := hfound _ hmem
    rw [hvalue] at this
    cases this
    exact hmem

/-- One way for `range` to walk maps of a type. -/
structure Order (V : Type) where
  walk : GoMap V → List (GoString × V)
  enumerates : ∀ m, Enumerates (walk m) m

theorem mem_walk_names {m : GoMap V} (order : Order V) (key : GoString) :
    key ∈ (order.walk m).map Prod.fst ↔ key ∈ m.keys := by
  rw [Finmap.mem_keys, Finmap.mem_iff, List.mem_map]
  constructor
  · rintro ⟨entry, hmem, rfl⟩
    exact ⟨entry.2, (order.enumerates _).lookup_of_mem hmem⟩
  · rintro ⟨value, hvalue⟩
    exact ⟨(key, value), ((order.enumerates _).2 key value).mpr hvalue, rfl⟩

/-- The map a range loop builds when it stores every pair it visits. -/
def ofList (entries : List (GoString × V)) (initial : GoMap V := ∅) : GoMap V :=
  entries.foldl (fun m entry => m.insert entry.1 entry.2) initial

@[simp] theorem ofList_nil (initial : GoMap V) : ofList [] initial = initial := rfl

@[simp] theorem ofList_cons (entry : GoString × V)
    (entries : List (GoString × V)) (initial : GoMap V) :
    ofList (entry :: entries) initial =
      ofList entries (initial.insert entry.1 entry.2) := rfl

theorem lookup_ofList_of_not_mem {entries : List (GoString × V)}
    {key : GoString} (habsent : key ∉ entries.map Prod.fst)
    (initial : GoMap V) :
    (ofList entries initial).lookup key = initial.lookup key := by
  induction entries generalizing initial with
  | nil => rfl
  | cons entry entries ih =>
      simp only [List.map_cons, List.mem_cons, not_or] at habsent
      rw [ofList_cons, ih habsent.2, lookup_insert_eq, if_neg habsent.1]

theorem lookup_ofList_of_mem {entries : List (GoString × V)}
    (hnodup : (entries.map Prod.fst).Nodup) {key : GoString} {value : V}
    (hmem : (key, value) ∈ entries) (initial : GoMap V) :
    (ofList entries initial).lookup key = some value := by
  induction entries generalizing initial with
  | nil => simp at hmem
  | cons entry entries ih =>
      rw [List.map_cons, List.nodup_cons] at hnodup
      rw [ofList_cons]
      rcases List.mem_cons.mp hmem with heq | htail
      · subst heq
        rw [lookup_ofList_of_not_mem hnodup.1, lookup_insert_eq, if_pos rfl]
      · exact ih hnodup.2 htail _

theorem lookup_ofList_map {W : Type} {entries : List (GoString × V)} {m : GoMap V}
    (henum : Enumerates entries m) (f : GoString → V → W) (initial : GoMap W)
    (key : GoString) :
    (ofList (entries.map fun entry => (entry.1, f entry.1 entry.2)) initial).lookup key =
      ((m.lookup key).map (f key)).or (initial.lookup key) := by
  have hkeys : (entries.map fun entry => (entry.1, f entry.1 entry.2)).map Prod.fst =
      entries.map Prod.fst := by
    rw [List.map_map]
    rfl
  cases hvalue : m.lookup key with
  | some value =>
      apply lookup_ofList_of_mem (by rw [hkeys]; exact henum.1)
      exact List.mem_map.mpr ⟨(key, value), (henum.2 key value).mpr hvalue, rfl⟩
  | none =>
      rw [lookup_ofList_of_not_mem (by rw [hkeys]; exact henum.not_mem_keys hvalue)]
      rfl

theorem lookup_ofList_of_enumerates {entries : List (GoString × V)} {m : GoMap V}
    (henum : Enumerates entries m) (initial : GoMap V) (key : GoString) :
    (ofList entries initial).lookup key = (m.lookup key).or (initial.lookup key) := by
  cases hvalue : m.lookup key with
  | some value =>
      exact lookup_ofList_of_mem henum.1 ((henum.2 key value).mpr hvalue) initial
  | none =>
      rw [lookup_ofList_of_not_mem (henum.not_mem_keys hvalue)]
      rfl

theorem ofList_of_enumerates {entries : List (GoString × V)} {m : GoMap V}
    (henum : Enumerates entries m) : ofList entries = m := by
  apply Finmap.ext_lookup
  intro key
  rw [lookup_ofList_of_enumerates henum, Finmap.lookup_empty, Option.or_none]

end GoMap

/-! `sort.Strings`: byte-wise order. -/

private theorem insertionSort_eq_of_perm {left right : List GoString}
    (hperm : left.Perm right) :
    left.insertionSort (· ≤ ·) = right.insertionSort (· ≤ ·) :=
  List.Perm.eq_of_pairwise (fun _ _ _ _ hle hge => List.le_antisymm hle hge)
    (List.pairwise_insertionSort _ left) (List.pairwise_insertionSort _ right)
    (((List.perm_insertionSort _ left).trans hperm).trans
      (List.perm_insertionSort _ right).symm)

def sortStrings (names : Multiset GoString) : List GoString :=
  Quotient.liftOn names (fun names => names.insertionSort (· ≤ ·))
    fun _ _ hperm => insertionSort_eq_of_perm hperm

@[simp] theorem coe_sortStrings (names : Multiset GoString) :
    (sortStrings names : Multiset GoString) = names := by
  induction names using Quotient.inductionOn with
  | h names => exact Quotient.sound (List.perm_insertionSort _ names)

@[simp] theorem mem_sortStrings {names : Multiset GoString} {name : GoString} :
    name ∈ sortStrings names ↔ name ∈ names := by
  rw [← Multiset.mem_coe, coe_sortStrings]

theorem pairwise_sortStrings (names : Multiset GoString) :
    (sortStrings names).Pairwise (· ≤ ·) := by
  induction names using Quotient.inductionOn with
  | h names => exact List.pairwise_insertionSort _ names

theorem nodup_sortStrings {names : Multiset GoString} (hnodup : names.Nodup) :
    (sortStrings names).Nodup := by
  rw [← Multiset.coe_nodup, coe_sortStrings]
  exact hnodup

theorem sortStrings_eq_of_mem_iff {names : Multiset GoString}
    {sorted : List GoString} (hnodup : names.Nodup)
    (hsorted : sorted.Pairwise (· < ·))
    (hmem : ∀ name, name ∈ names ↔ name ∈ sorted) :
    sortStrings names = sorted := by
  have hsortedNodup : sorted.Nodup := by
    apply hsorted.imp
    intro left right hlt heq
    subst heq
    exact List.lt_irrefl left hlt
  have hperm : (sortStrings names).Perm sorted := by
    rw [List.perm_ext_iff_of_nodup (nodup_sortStrings hnodup) hsortedNodup]
    intro name
    rw [mem_sortStrings, hmem]
  exact List.Perm.eq_of_pairwise
    (fun _ _ _ _ hle hge => List.le_antisymm hle hge)
    (pairwise_sortStrings names) (hsorted.imp List.le_of_lt) hperm

def sortedKeys {V : Type} (m : GoMap V) : List GoString := sortStrings m.keys.val

def sortedEntries {V : Type} (m : GoMap V) : List (GoString × V) :=
  (sortedKeys m).filterMap fun key => (m.lookup key).map fun value => (key, value)

theorem mem_sortedKeys {V : Type} {m : GoMap V} {key : GoString} :
    key ∈ sortedKeys m ↔ key ∈ m := by
  rw [sortedKeys, mem_sortStrings, Finset.mem_val, Finmap.mem_keys]

theorem sortedEntries_enumerates {V : Type} (m : GoMap V) :
    GoMap.Enumerates (sortedEntries m) m := by
  have hkeys : (sortedEntries m).map Prod.fst = sortedKeys m := by
    have hall : ∀ key ∈ sortedKeys m, ∃ value, m.lookup key = some value :=
      fun key hmem => Finmap.mem_iff.mp (mem_sortedKeys.mp hmem)
    unfold sortedEntries
    generalize sortedKeys m = keys at hall
    induction keys with
    | nil => rfl
    | cons key keys ih =>
        obtain ⟨value, hvalue⟩ := hall key List.mem_cons_self
        simp only [List.filterMap_cons, hvalue, Option.map_some, List.map_cons]
        rw [ih fun other hmem => hall other (List.mem_cons_of_mem _ hmem)]
  constructor
  · rw [hkeys]
    exact nodup_sortStrings m.keys.nodup
  · intro key value
    simp only [sortedEntries, List.mem_filterMap, Option.map_eq_some_iff,
      Prod.mk.injEq]
    constructor
    · rintro ⟨other, _, found, hfound, rfl, rfl⟩
      exact hfound
    · intro hvalue
      exact ⟨key, mem_sortedKeys.mpr (Finmap.mem_iff.mpr ⟨value, hvalue⟩),
        value, hvalue, rfl, rfl⟩

def GoMap.Order.sorted {V : Type} : GoMap.Order V := ⟨sortedEntries, sortedEntries_enumerates⟩

theorem enumerates_sorted_values {V : Type} (m : GoMap V) (name : V → GoString)
    (hname : ∀ key value, m.lookup key = some value → name value = key)
    (le : V → V → Prop) [DecidableRel le] :
    GoMap.Enumerates
      ((((sortedEntries m).map Prod.snd).insertionSort le).map
        fun value => (name value, value)) m := by
  have henum := sortedEntries_enumerates m
  refine henum.perm (((List.perm_insertionSort le _).map _).trans ?_)
  rw [List.map_map]
  apply List.Perm.of_eq
  conv_rhs => rw [← List.map_id (sortedEntries m)]
  apply List.map_congr_left
  intro entry hmem
  have hentry := hname entry.1 entry.2 (henum.lookup_of_mem hmem)
  simp [hentry]

end SimonMQ.Go
