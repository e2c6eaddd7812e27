import Mathlib.Data.List.Nodup

namespace SimonMQ.SharedObject

/-! Concurrent calls on a shared object.  A history is linearizable when every call can be
given one moment between its start and its end at which it takes place. -/

structure Object (State Op Res : Type) where
  initial : State
  apply : State → Op → Res × State

inductive Event (Op Res : Type)
  | call (id : Nat) (op : Op)
  | reply (id : Nat) (res : Res)

variable {State Op Res : Type}

def callIDs (history : List (Event Op Res)) : List Nat :=
  history.filterMap fun
    | .call id _ => some id
    | .reply _ _ => none

def replyIDs (history : List (Event Op Res)) : List Nat :=
  history.filterMap fun
    | .call _ _ => none
    | .reply id _ => some id

@[simp] theorem callIDs_call (history : List (Event Op Res)) (id : Nat) (op : Op) :
    callIDs (history ++ [.call id op]) = callIDs history ++ [id] := by
  simp [callIDs]

@[simp] theorem callIDs_reply (history : List (Event Op Res)) (id : Nat) (res : Res) :
    callIDs (history ++ [.reply id res]) = callIDs history := by
  simp [callIDs]

@[simp] theorem replyIDs_call (history : List (Event Op Res)) (id : Nat) (op : Op) :
    replyIDs (history ++ [.call id op]) = replyIDs history := by
  simp [replyIDs]

@[simp] theorem replyIDs_reply (history : List (Event Op Res)) (id : Nat) (res : Res) :
    replyIDs (history ++ [.reply id res]) = replyIDs history ++ [id] := by
  simp [replyIDs]

theorem mem_callIDs {history : List (Event Op Res)} {id : Nat} {op : Op}
    (hcall : .call id op ∈ history) : id ∈ callIDs history :=
  List.mem_filterMap.mpr ⟨_, hcall, rfl⟩

theorem split_concat {history before after : List (Event Op Res)} {last event : Event Op Res}
    (hsplit : history ++ [last] = before ++ event :: after) :
    before = history ∧ event = last ∨
      ∃ rest, history = before ++ event :: rest := by
  rcases List.eq_nil_or_concat after with rfl | ⟨rest, final, rfl⟩
  · obtain ⟨hbefore, hevent⟩ := List.append_inj' hsplit rfl
    exact .inl ⟨hbefore.symm, (List.singleton_inj.mp hevent).symm⟩
  · rw [List.concat_eq_append, ← List.cons_append, ← List.append_assoc] at hsplit
    exact .inr ⟨rest, (List.append_inj' hsplit rfl).1⟩

/-- Every call starts once, and ends at most once, after it has started. -/
structure WellFormed (history : List (Event Op Res)) : Prop where
  calls : (callIDs history).Nodup
  replies : (replyIDs history).Nodup
  ordered : ∀ {before after id res}, history = before ++ .reply id res :: after →
    id ∈ callIDs before

theorem wellFormed_nil : WellFormed ([] : List (Event Op Res)) where
  calls := List.nodup_nil
  replies := List.nodup_nil
  ordered := fun hsplit => by simp at hsplit

theorem WellFormed.call {history : List (Event Op Res)} (hformed : WellFormed history)
    {id : Nat} (hfresh : id ∉ callIDs history) (op : Op) :
    WellFormed (history ++ [.call id op]) where
  calls := by
    rw [callIDs_call, ← List.concat_eq_append]
    exact hformed.calls.concat hfresh
  replies := by
    rw [replyIDs_call]
    exact hformed.replies
  ordered := by
    intro before after id res hsplit
    rcases split_concat hsplit with ⟨-, hevent⟩ | ⟨rest, hrest⟩
    · contradiction
    · exact hformed.ordered hrest

theorem WellFormed.reply {history : List (Event Op Res)} (hformed : WellFormed history)
    {id : Nat} (hcalled : id ∈ callIDs history) (hpending : id ∉ replyIDs history)
    (res : Res) : WellFormed (history ++ [.reply id res]) where
  calls := by
    rw [callIDs_reply]
    exact hformed.calls
  replies := by
    rw [replyIDs_reply, ← List.concat_eq_append]
    exact hformed.replies.concat hpending
  ordered := by
    intro before after other res hsplit
    rcases split_concat hsplit with ⟨hbefore, hevent⟩ | ⟨rest, hrest⟩
    · cases hevent
      rw [hbefore]
      exact hcalled
    · exact hformed.ordered hrest

namespace Object

variable (object : Object State Op Res)

def after (order : List (Nat × Op)) : State :=
  order.foldl (fun state call => (object.apply state call.2).2) object.initial

/-- What the call at this position of the order returns. -/
def resultAt (order : List (Nat × Op)) (position : Nat) : Option Res :=
  (order[position]?).map fun call =>
    (object.apply (object.after (order.take position)) call.2).1

theorem resultAt_concat {order : List (Nat × Op)} {position : Nat} {res : Res}
    (hres : object.resultAt order position = some res) (call : Nat × Op) :
    object.resultAt (order ++ [call]) position = some res := by
  obtain ⟨found, hfound, hvalue⟩ := Option.map_eq_some_iff.mp hres
  have hlt := (List.getElem?_eq_some_iff.mp hfound).1
  rw [resultAt, List.getElem?_append_left hlt, hfound,
    List.take_append_of_le_length (Nat.le_of_lt hlt), Option.map_some, hvalue]

/-- The calls took place in this order: each one at most once, with the results they were
answered with, and none before another that had ended when it started.  A call that has
not been answered may be in the order or not. -/
structure Linearizes (history : List (Event Op Res)) (order : List (Nat × Op)) : Prop where
  once : (order.map Prod.fst).Nodup
  called : ∀ {id op}, (id, op) ∈ order → .call id op ∈ history
  answered : ∀ {id res}, .reply id res ∈ history →
    ∃ (position : Nat) (op : Op), order[position]? = some (id, op) ∧
      object.resultAt order position = some res
  realTime : ∀ {before after later op earlier res},
    history = before ++ .call later op :: after → .reply earlier res ∈ before →
    ∀ {first second : Nat} {opFirst opSecond}, order[first]? = some (earlier, opFirst) →
      order[second]? = some (later, opSecond) → first < second

def Linearizable (history : List (Event Op Res)) : Prop :=
  ∃ order, object.Linearizes history order

namespace Linearizes

variable {object} {history : List (Event Op Res)} {order : List (Nat × Op)}

theorem nil : object.Linearizes [] [] where
  once := List.nodup_nil
  called := fun hmem => absurd hmem List.not_mem_nil
  answered := fun hreply => absurd hreply List.not_mem_nil
  realTime := fun hsplit => by simp at hsplit

theorem mem_order_of_reply (hlinear : object.Linearizes history order) {id : Nat} {res : Res}
    (hreply : .reply id res ∈ history) : id ∈ order.map Prod.fst := by
  obtain ⟨position, op, hfound, -⟩ := hlinear.answered hreply
  exact List.mem_map.mpr ⟨_, List.mem_of_getElem? hfound, rfl⟩

theorem call (hlinear : object.Linearizes history order) {id : Nat}
    (hfresh : id ∉ callIDs history) (op : Op) :
    object.Linearizes (history ++ [.call id op]) order where
  once := hlinear.once
  called := fun hmem => List.mem_append_left _ (hlinear.called hmem)
  answered := by
    intro other res hreply
    rcases List.mem_append.mp hreply with hold | hnew
    · exact hlinear.answered hold
    · simp at hnew
  realTime := by
    intro before after later op earlier res hsplit hreply first second opFirst opSecond
      hfirst hsecond
    rcases split_concat hsplit with ⟨-, hevent⟩ | ⟨rest, hrest⟩
    · -- A call that has just started is not in the order.
      cases hevent
      have hcalled := hlinear.called (List.mem_of_getElem? hsecond)
      exact absurd (mem_callIDs hcalled) hfresh
    · exact hlinear.realTime hrest hreply hfirst hsecond

theorem commit (hlinear : object.Linearizes history order) {id : Nat} {op : Op}
    (hcalled : .call id op ∈ history) (hnew : id ∉ order.map Prod.fst) :
    object.Linearizes history (order ++ [(id, op)]) where
  once := by
    rw [List.map_append, List.map_singleton, ← List.concat_eq_append]
    exact hlinear.once.concat hnew
  called := by
    intro other found hmem
    rcases List.mem_append.mp hmem with hold | hlast
    · exact hlinear.called hold
    · cases List.mem_singleton.mp hlast
      exact hcalled
  answered := by
    intro other res hreply
    obtain ⟨position, found, hfound, hres⟩ := hlinear.answered hreply
    have hlt := (List.getElem?_eq_some_iff.mp hfound).1
    refine ⟨position, found, ?_, object.resultAt_concat hres _⟩
    rw [List.getElem?_append_left hlt, hfound]
  realTime := by
    intro before after later opLater earlier res hsplit hreply first second opFirst opSecond
      hfirst hsecond
    have hended : first < order.length := by
      by_contra hlast
      rw [List.getElem?_append_right (Nat.le_of_not_lt hlast)] at hfirst
      have hmem := List.mem_singleton.mp (List.mem_of_getElem? hfirst)
      cases hmem
      have hreplied : .reply id res ∈ history := by
        rw [hsplit]
        exact List.mem_append_left _ hreply
      exact hnew (hlinear.mem_order_of_reply hreplied)
    rw [List.getElem?_append_left hended] at hfirst
    by_cases hold : second < order.length
    · rw [List.getElem?_append_left hold] at hsecond
      exact hlinear.realTime hsplit hreply hfirst hsecond
    · omega

theorem reply (hlinear : object.Linearizes history order) {id position : Nat} {op : Op}
    {res : Res} (hfound : order[position]? = some (id, op))
    (hres : object.resultAt order position = some res) :
    object.Linearizes (history ++ [.reply id res]) order where
  once := hlinear.once
  called := fun hmem => List.mem_append_left _ (hlinear.called hmem)
  answered := by
    intro other found hreply
    rcases List.mem_append.mp hreply with hold | hlast
    · exact hlinear.answered hold
    · cases List.mem_singleton.mp hlast
      exact ⟨position, op, hfound, hres⟩
  realTime := by
    intro before after later op earlier res hsplit hreply first second opFirst opSecond
      hfirst hsecond
    rcases split_concat hsplit with ⟨-, hevent⟩ | ⟨rest, hrest⟩
    · contradiction
    · exact hlinear.realTime hrest hreply hfirst hsecond

end Linearizes

end Object

end SimonMQ.SharedObject
