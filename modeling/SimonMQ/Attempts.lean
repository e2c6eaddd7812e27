import Mathlib.Data.List.Count
import Mathlib.Data.List.DropRight

namespace SimonMQ.Attempts

/-! Attempts under a budget.  Whoever retries keeps a count of its own; what an outsider
sees is a list of attempts, each for a key, each with the budget that was in force. -/

structure Attempt (K : Type) where
  key : K
  budget : Int
  ok : Bool
  deriving DecidableEq, Repr

variable {K : Type} [DecidableEq K]

/-- The results for a key, oldest first. -/
def outcomes (key : K) (history : List (Attempt K)) : List Bool :=
  (history.filter fun attempt => attempt.key = key).map Attempt.ok

def failures (key : K) (history : List (Attempt K)) : Nat :=
  (outcomes key history).count false

@[simp] theorem outcomes_nil (key : K) : outcomes key [] = [] := rfl

@[simp] theorem outcomes_append (key : K) (before after : List (Attempt K)) :
    outcomes key (before ++ after) = outcomes key before ++ outcomes key after := by
  simp [outcomes]

@[simp] theorem failures_append (key : K) (before after : List (Attempt K)) :
    failures key (before ++ after) = failures key before + failures key after := by
  simp [failures]

theorem outcomes_of_not_mem {key : K} {history : List (Attempt K)}
    (hother : ∀ attempt ∈ history, attempt.key ≠ key) : outcomes key history = [] := by
  rw [outcomes, List.filter_eq_nil_iff.mpr (by simpa using hother), List.map_nil]

theorem outcomes_of_mem {key : K} {history : List (Attempt K)} {attempt : Attempt K}
    (hnodup : (history.map Attempt.key).Nodup) (hmem : attempt ∈ history)
    (hkey : attempt.key = key) : outcomes key history = [attempt.ok] := by
  induction history with
  | nil => contradiction
  | cons first history ih =>
      rw [List.map_cons, List.nodup_cons] at hnodup
      have hsplit : outcomes key (first :: history) =
          outcomes key [first] ++ outcomes key history := outcomes_append key [first] history
      rw [hsplit]
      rcases List.mem_cons.mp hmem with rfl | hlater
      · have hrest : outcomes key history = [] := by
          apply outcomes_of_not_mem
          intro other hother heq
          exact hnodup.1 (hkey ▸ heq ▸ List.mem_map_of_mem hother)
        rw [hrest]
        simp [outcomes, hkey]
      · have hfirst : first.key ≠ key := by
          rintro rfl
          exact hnodup.1 (hkey ▸ List.mem_map_of_mem hlater)
        rw [ih hnodup.2 hlater]
        simp [outcomes, hfirst]

/-- The key is done with: an attempt at it succeeded, or as many failed as the budget
of one of them allows. -/
def Settled (history : List (Attempt K)) (key : K) : Prop :=
  true ∈ outcomes key history ∨
    ∃ attempt ∈ history, attempt.key = key ∧ attempt.budget ≤ failures key history

theorem Settled.append {history : List (Attempt K)} {key : K}
    (hsettled : Settled history key) (later : List (Attempt K)) :
    Settled (history ++ later) key := by
  rcases hsettled with hok | ⟨attempt, hmem, hkey, hbudget⟩
  · exact .inl (by simp [hok])
  · refine .inr ⟨attempt, List.mem_append_left _ hmem, hkey, ?_⟩
    rw [failures_append]
    omega

/-- At most `limit` attempts were made at the key, and none after one that succeeded. -/
structure Bounded (limit : Nat) (history : List (Attempt K)) (key : K) : Prop where
  length_le : (outcomes key history).length ≤ limit
  failed : ∀ ok ∈ (outcomes key history).dropLast, ok = false

theorem bounded_of_replicate {limit count : Nat} {history : List (Attempt K)} {key : K}
    (hcount : count ≤ limit) (houtcomes : outcomes key history = List.replicate count false) :
    Bounded limit history key where
  length_le := by rwa [houtcomes, List.length_replicate]
  failed := by
    intro ok hok
    rw [houtcomes, List.dropLast_replicate] at hok
    exact List.eq_of_mem_replicate hok

theorem bounded_of_success {limit count : Nat} {history : List (Attempt K)} {key : K}
    (hcount : count < limit)
    (houtcomes : outcomes key history = List.replicate count false ++ [true]) :
    Bounded limit history key where
  length_le := by
    rw [houtcomes, List.length_append, List.length_replicate]
    exact hcount
  failed := by
    intro ok hok
    rw [houtcomes, List.dropLast_concat] at hok
    exact List.eq_of_mem_replicate hok

theorem Bounded.append_of_not_mem {limit : Nat} {history later : List (Attempt K)} {key : K}
    (hbounded : Bounded limit history key) (hother : ∀ attempt ∈ later, attempt.key ≠ key) :
    Bounded limit (history ++ later) key := by
  have hsame : outcomes key (history ++ later) = outcomes key history := by
    rw [outcomes_append, outcomes_of_not_mem hother, List.append_nil]
  exact ⟨hsame ▸ hbounded.length_le, hsame ▸ hbounded.failed⟩

end SimonMQ.Attempts
