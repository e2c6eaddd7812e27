import Mathlib.Algebra.BigOperators.Group.Finset.Basic
import SimonMQ.Go.Map

namespace SimonMQ.Go.GoMap

/-! Maps that count how often a key was seen. -/

/-- `m[key]++`. -/
def increment (m : GoMap Nat) (key : GoString) : GoMap Nat :=
  m.insert key ((m.lookup key).getD 0 + 1)

/-- The map has counted these keys and no others. -/
def Counts (m : GoMap Nat) (items : List GoString) : Prop :=
  ∀ key, m.lookup key = if key ∈ items then some (items.count key) else none

theorem counts_empty : Counts ∅ [] := by
  intro key
  simp

namespace Counts

variable {m : GoMap Nat} {items : List GoString}

theorem getD_lookup (hcounts : Counts m items) (key : GoString) :
    (m.lookup key).getD 0 = items.count key := by
  rw [hcounts key]
  split_ifs with hmem
  · rfl
  · rw [List.count_eq_zero_of_not_mem hmem]
    rfl

theorem keys_eq (hcounts : Counts m items) : Finmap.keys m = items.toFinset := by
  ext key
  rw [Finmap.mem_keys, Finmap.mem_iff, hcounts key, List.mem_toFinset]
  split_ifs with hmem <;> simp [hmem]

theorem increment (hcounts : Counts m items) (key : GoString) :
    Counts (m.increment key) (items ++ [key]) := by
  intro other
  rw [GoMap.increment, lookup_insert_eq, hcounts.getD_lookup, List.count_append]
  split_ifs with hother hmem hmem
  · rw [hother, List.count_singleton_self]
  · exact absurd (by simp [hother]) hmem
  · have hitem : other ∈ items := by simpa [hother] using hmem
    rw [hcounts other, if_pos hitem, List.count_singleton]
    simp [Ne.symm hother]
  · have hitem : other ∉ items := fun hitem => hmem (List.mem_append_left _ hitem)
    rw [hcounts other, if_neg hitem]

theorem perm_of_enumerates (hcounts : Counts m items) {entries : List (GoString × Nat)}
    (henum : Enumerates entries m) :
    entries.Perm (items.dedup.map fun key => (key, items.count key)) := by
  have hitems : (items.dedup.map fun key => (key, items.count key)).Nodup :=
    (List.nodup_dedup items).map fun _ _ heq => congrArg Prod.fst heq
  rw [List.perm_ext_iff_of_nodup henum.1.of_map hitems]
  rintro ⟨key, count⟩
  rw [henum.2, hcounts key, List.mem_map]
  constructor
  · intro hlookup
    split_ifs at hlookup with hmem
    cases hlookup
    exact ⟨key, List.mem_dedup.mpr hmem, rfl⟩
  · rintro ⟨item, hitem, heq⟩
    cases heq
    rw [if_pos (List.mem_dedup.mp hitem)]

theorem sum_beyond_first (hcounts : Counts m items) {entries : List (GoString × Nat)}
    (henum : Enumerates entries m) :
    (entries.map fun entry => entry.2 - 1).sum + items.toFinset.card = items.length := by
  have hsplit : ∀ keys : List GoString, (∀ key ∈ keys, key ∈ items) →
      (keys.map fun key => items.count key - 1).sum + keys.length =
        (keys.map fun key => items.count key).sum := by
    intro keys hkeys
    induction keys with
    | nil => rfl
    | cons key keys ih =>
        have hcount : 0 < items.count key := List.count_pos_iff.mpr (hkeys key (by simp))
        have hrest := ih fun other hother => hkeys other (List.mem_cons_of_mem _ hother)
        simp only [List.map_cons, List.sum_cons, List.length_cons]
        omega
  calc (entries.map fun entry => entry.2 - 1).sum + items.toFinset.card
      = (items.dedup.map fun key => items.count key - 1).sum + items.dedup.length := by
        rw [((hcounts.perm_of_enumerates henum).map _).sum_eq, List.card_toFinset,
          List.map_map]
        rfl
    _ = (items.dedup.map fun key => items.count key).sum :=
        hsplit items.dedup fun key hkey => List.mem_dedup.mp hkey
    _ = items.length := by
        have hbeq : (instBEqOfDecidableEq : BEq GoString) = List.instBEq :=
          lawful_beq_subsingleton _ _
        rw [← List.sum_map_count_dedup_eq_length items, hbeq]

end Counts

end SimonMQ.Go.GoMap
