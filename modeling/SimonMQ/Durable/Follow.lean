import SimonMQ.Durable.Layout

namespace SimonMQ.Durable

open SimonMQ.Go

/-! Readers over a layout: the segments are followed in order, and every record is
returned once. -/

section SegmentList

variable {name next : GoString} {before after : List GoString}

theorem segmentAfter_mid (hbefore : name ∉ before) :
    segmentAfter name (before ++ name :: next :: after) = some next := by
  induction before with
  | nil => simp [segmentAfter]
  | cons head before ih =>
      rw [List.mem_cons, not_or] at hbefore
      have hrest := ih hbefore.2
      cases before with
      | nil => simp [segmentAfter, Ne.symm hbefore.1]
      | cons second before => simpa [segmentAfter, Ne.symm hbefore.1] using hrest

theorem segmentAfter_last (hbefore : name ∉ before) :
    segmentAfter name (before ++ [name]) = none := by
  induction before with
  | nil => simp [segmentAfter]
  | cons head before ih =>
      rw [List.mem_cons, not_or] at hbefore
      have hrest := ih hbefore.2
      cases before with
      | nil => simp [segmentAfter, Ne.symm hbefore.1]
      | cons second before => simpa [segmentAfter, Ne.symm hbefore.1] using hrest

end SegmentList

theorem segmentNames_eq_cons (base : Nat) (closed : List (List Record)) :
    ∃ rest, segmentNames base closed = segName base :: rest := by
  cases closed with
  | nil => exact ⟨[], by simp [segmentNames, closedFiles]⟩
  | cons records closed => exact ⟨_, rfl⟩

theorem segmentNames_split (base : Nat) (before after : List (List Record))
    (records : List Record) :
    segmentNames base (before ++ records :: after) =
      (closedFiles base before).map Prod.fst ++
        segName (base + before.flatten.length) ::
          segmentNames (base + before.flatten.length + records.length) after := by
  simp only [segmentNames, closedFiles_append, closedFiles, List.map_append, List.map_cons,
    List.append_assoc, List.cons_append, List.flatten_append, List.flatten_cons,
    List.length_append, Nat.add_assoc]

/-- A reader that has returned everything except `remaining`. -/
inductive Position (base : Nat) (closed : List (List Record)) (active : List Record) :
    Reader → List Record → Prop
  | inClosed (before after : List (List Record)) (done todo : List Record)
      (hclosed : closed = before ++ (done ++ todo) :: after) :
      Position base closed active
        ⟨segName (base + before.flatten.length), (frames done).length⟩
        (todo ++ (after.flatten ++ active))
  | inActive (done todo : List Record) (hactive : active = done ++ todo) :
      Position base closed active
        ⟨segName (base + closed.flatten.length), (frames done).length⟩ todo

theorem Position.start (base : Nat) (closed : List (List Record))
    (active : List Record) :
    Position base closed active ⟨segName base, 0⟩ (closed.flatten ++ active) := by
  cases closed with
  | nil => exact .inActive [] active rfl
  | cons records closed =>
      rw [List.flatten_cons, List.append_assoc]
      exact .inClosed [] closed [] records rfl

section

variable {dir : Directory} {base : Nat} {closed : List (List Record)}
  {active : List Record} {tail : Bytes}

theorem Position.next (before after : List (List Record)) (records : List Record) :
    Position base (before ++ records :: after) active
      ⟨segName (base + before.flatten.length + records.length), 0⟩
      (after.flatten ++ active) := by
  have hlength : base + before.flatten.length + records.length =
      base + (before ++ [records]).flatten.length := by
    simp only [List.flatten_append, List.flatten_cons, List.flatten_nil, List.append_nil,
      List.length_append, Nat.add_assoc]
  have hsplit : before ++ records :: after = before ++ [records] ++ after := by simp
  rw [hlength, hsplit]
  cases after with
  | nil =>
      rw [List.append_nil]
      exact .inActive [] active rfl
  | cons following after =>
      rw [List.flatten_cons, List.append_assoc following]
      exact .inClosed (before ++ [records]) after [] following rfl

theorem Layout.lookup_position (hlayout : Layout dir base closed active tail)
    {reader : Reader} {remaining : List Record}
    (hposition : Position base closed active reader remaining) :
    ∃ content, dir.lookup reader.current = some content := by
  cases hposition with
  | inClosed before after done todo hclosed =>
      subst hclosed
      exact ⟨_, hlayout.lookup_closed⟩
  | inActive done todo hactive => exact ⟨_, hlayout.lookup_active⟩

/-! One turn, by where the reader stands.  A whole frame ahead is returned whatever
the segment list says; at the end of a segment the list decides. -/

theorem Layout.fetch_closed_record {before after : List (List Record)}
    {done todo : List Record} {rec : Record}
    (hlayout : Layout dir base (before ++ (done ++ rec :: todo) :: after) active tail)
    (hrec : rec.Fits) (segments : List GoString) :
    Reader.fetch dir segments
        ⟨segName (base + before.flatten.length), (frames done).length⟩ =
      .record rec
        ⟨segName (base + before.flatten.length), (frames (done ++ [rec])).length⟩ := by
  have hdrop : (frames (done ++ rec :: todo)).drop (frames done).length =
      rec.encode ++ frames todo := by
    rw [frames_append]
    exact List.drop_left' rfl
  have hlength : (frames (done ++ [rec])).length =
      (frames done).length + rec.encode.length := by simp
  simp only [Reader.fetch, hlayout.lookup_closed, hdrop, readFrame_encode hrec, hlength]

theorem Layout.fetch_active_record {done todo : List Record} {rec : Record}
    (hlayout : Layout dir base closed (done ++ rec :: todo) tail)
    (hrec : rec.Fits) (segments : List GoString) :
    Reader.fetch dir segments
        ⟨segName (base + closed.flatten.length), (frames done).length⟩ =
      .record rec
        ⟨segName (base + closed.flatten.length), (frames (done ++ [rec])).length⟩ := by
  have hdrop : (frames (done ++ rec :: todo) ++ tail).drop (frames done).length =
      rec.encode ++ (frames todo ++ tail) := by
    rw [frames_append, List.append_assoc, frames_cons, List.append_assoc]
    exact List.drop_left' rfl
  have hlength : (frames (done ++ [rec])).length =
      (frames done).length + rec.encode.length := by simp
  simp only [Reader.fetch, hlayout.lookup_active, hdrop, readFrame_encode hrec, hlength]

theorem Layout.fetch_closed_end {before after : List (List Record)}
    {records : List Record}
    (hlayout : Layout dir base (before ++ records :: after) active tail)
    {segments : List GoString} {next : GoString}
    (hnext : segmentAfter (segName (base + before.flatten.length)) segments = some next)
    (hexists : ∃ content, dir.lookup next = some content) :
    Reader.fetch dir segments
        ⟨segName (base + before.flatten.length), (frames records).length⟩ =
      .opened ⟨next, 0⟩ := by
  obtain ⟨content, hcontent⟩ := hexists
  have hdrop : (frames records).drop (frames records).length = [] :=
    List.drop_length
  simp only [Reader.fetch, hlayout.lookup_closed, hdrop, readFrame_nil, hnext, hcontent]

theorem Layout.fetch_active_end (hlayout : Layout dir base closed active tail)
    (htorn : Torn tail) {segments : List GoString}
    (hlast : segmentAfter (segName (base + closed.flatten.length)) segments = none) :
    Reader.fetch dir segments
        ⟨segName (base + closed.flatten.length), (frames active).length⟩ =
      .finished := by
  have hdrop : (frames active ++ tail).drop (frames active).length = tail :=
    List.drop_left' rfl
  rcases htorn.readFrame with hread | hread <;>
    simp only [Reader.fetch, hlayout.lookup_active, hdrop, hread, hlast]

theorem Layout.segmentAfter_closed {before after : List (List Record)}
    {records : List Record}
    (hlayout : Layout dir base (before ++ records :: after) active tail) :
    segmentAfter (segName (base + before.flatten.length))
        (segmentNames base (before ++ records :: after)) =
      some (segName (base + before.flatten.length + records.length)) := by
  have hpairwise := hlayout.names_pairwise
  obtain ⟨rest, hrest⟩ :=
    segmentNames_eq_cons (base + before.flatten.length + records.length) after
  rw [segmentNames_split, hrest] at hpairwise ⊢
  apply segmentAfter_mid
  intro hmem
  exact List.lt_irrefl _
    ((List.pairwise_append.mp hpairwise).2.2 _ hmem _ List.mem_cons_self)

theorem Layout.segmentAfter_active (hlayout : Layout dir base closed active tail) :
    segmentAfter (segName (base + closed.flatten.length)) (segmentNames base closed) =
      none := by
  have hpairwise := hlayout.names_pairwise
  rw [segmentNames] at hpairwise ⊢
  apply segmentAfter_last
  intro hmem
  exact List.lt_irrefl _
    ((List.pairwise_append.mp hpairwise).2.2 _ hmem _ List.mem_cons_self)

/-- Successive calls of `readNext` return exactly these records and then nothing. -/
inductive Yields (dir : Directory) (segments : List GoString) :
    Reader → List Record → Prop
  | finished {reader : Reader} (hfetch : reader.fetch dir segments = .finished) :
      Yields dir segments reader []
  | opened {reader next : Reader} {records : List Record}
      (hfetch : reader.fetch dir segments = .opened next)
      (hrest : Yields dir segments next records) : Yields dir segments reader records
  | record {reader next : Reader} {rec : Record} {records : List Record}
      (hfetch : reader.fetch dir segments = .record rec next)
      (hrest : Yields dir segments next records) :
      Yields dir segments reader (rec :: records)

theorem Layout.yields_active (hlayout : Layout dir base closed active tail)
    (hfits : ∀ rec ∈ active, rec.Fits) (htorn : Torn tail) {done todo : List Record}
    (hactive : active = done ++ todo) :
    Yields dir (segmentNames base closed)
      ⟨segName (base + closed.flatten.length), (frames done).length⟩ todo := by
  induction todo generalizing done with
  | nil =>
      rw [List.append_nil] at hactive
      subst hactive
      exact .finished (hlayout.fetch_active_end htorn hlayout.segmentAfter_active)
  | cons rec todo ih =>
      subst hactive
      exact .record (hlayout.fetch_active_record (hfits rec (by simp)) _) (ih (by simp))

theorem Layout.yields_closed {before after : List (List Record)} {done todo : List Record}
    (hlayout : Layout dir base (before ++ (done ++ todo) :: after) active tail)
    (hfits : ∀ rec ∈ todo, rec.Fits) {remaining : List Record}
    (hnext : Yields dir (segmentNames base (before ++ (done ++ todo) :: after))
      ⟨segName (base + before.flatten.length + (done ++ todo).length), 0⟩ remaining) :
    Yields dir (segmentNames base (before ++ (done ++ todo) :: after))
      ⟨segName (base + before.flatten.length), (frames done).length⟩
      (todo ++ remaining) := by
  induction todo generalizing done with
  | nil =>
      rw [List.append_nil] at hlayout hnext ⊢
      refine .opened (hlayout.fetch_closed_end hlayout.segmentAfter_closed ?_) hnext
      exact hlayout.lookup_position (Position.next before after done)
  | cons rec todo ih =>
      refine .record (hlayout.fetch_closed_record (hfits rec List.mem_cons_self) _) ?_
      have hsplit : done ++ rec :: todo = done ++ [rec] ++ todo := by simp
      rw [hsplit] at hlayout hnext ⊢
      exact ih hlayout (fun other hmem => hfits other (List.mem_cons_of_mem _ hmem)) hnext

theorem Layout.yields_after (hlayout : Layout dir base closed active tail)
    (hfits : ∀ rec ∈ closed.flatten ++ active, rec.Fits) (htorn : Torn tail)
    {before after : List (List Record)} (hclosed : closed = before ++ after) :
    Yields dir (segmentNames base closed)
      ⟨segName (base + before.flatten.length), 0⟩ (after.flatten ++ active) := by
  induction after generalizing before with
  | nil =>
      rw [List.append_nil] at hclosed
      subst hclosed
      exact hlayout.yields_active (fun rec hmem => hfits rec (by simp [hmem])) htorn
        (List.nil_append active).symm
  | cons records after ih =>
      have hnext := @ih (before ++ [records]) (by simp [hclosed])
      subst hclosed
      rw [List.flatten_cons, List.append_assoc]
      have hrecords : ∀ rec ∈ records, rec.Fits :=
        fun rec hmem => hfits rec (by simp [hmem])
      rw [← List.nil_append records] at hlayout hnext ⊢
      refine hlayout.yields_closed hrecords ?_
      simpa [Nat.add_assoc] using hnext

theorem Layout.yields (hlayout : Layout dir base closed active tail)
    (hfits : ∀ rec ∈ closed.flatten ++ active, rec.Fits) (htorn : Torn tail) :
    Yields dir (segmentNames base closed) ⟨segName base, 0⟩ (closed.flatten ++ active) := by
  simpa using hlayout.yields_after hfits htorn (List.nil_append closed).symm

end

/-! Enough fuel turns what a reader yields into the result of its loop. -/

theorem Yields.drain {dir : Directory} {segments : List GoString} {reader : Reader}
    {records : List Record} (hyields : Yields dir segments reader records) :
    ∃ enough, ∀ fuel, enough ≤ fuel →
      reader.drain dir segments fuel = some (records, .finished) := by
  induction hyields with
  | finished hfetch =>
      refine ⟨1, fun fuel hfuel => ?_⟩
      obtain ⟨fuel, rfl⟩ := Nat.exists_eq_add_of_le' hfuel
      simp only [Reader.drain, hfetch]
  | opened hfetch _ ih =>
      obtain ⟨enough, henough⟩ := ih
      refine ⟨enough + 1, fun fuel hfuel => ?_⟩
      cases fuel with
      | zero => omega
      | succ fuel => simp only [Reader.drain, hfetch, henough fuel (by omega)]
  | record hfetch _ ih =>
      obtain ⟨enough, henough⟩ := ih
      refine ⟨enough + 1, fun fuel hfuel => ?_⟩
      cases fuel with
      | zero => omega
      | succ fuel =>
          simp only [Reader.drain, hfetch, henough fuel (by omega), Option.map_some]

/-- The checkpoint that a record puts in force: its file's name and records. -/
def checkpointOf (dir : Directory) (rec : Record) : Option (GoString × List Record) :=
  match rec.opType with
  | .endCheckpoint =>
      match decodeEndCheckpoint rec.payload with
      | none => none
      | some endCkpt =>
          match resolveCheckpoint dir endCkpt with
          | .records records => some (endCkpt.fileName, records)
          | _ => none
  | _ => none

theorem checkpointOf_congr {dir other : Directory} {rec : Record}
    (hsame : rec.opType = .endCheckpoint → ∀ endCkpt,
      decodeEndCheckpoint rec.payload = some endCkpt →
        other.lookup endCkpt.fileName = dir.lookup endCkpt.fileName) :
    checkpointOf other rec = checkpointOf dir rec := by
  unfold checkpointOf
  cases hop : rec.opType with
  | endCheckpoint =>
      cases hdecode : decodeEndCheckpoint rec.payload with
      | none => rfl
      | some endCkpt =>
          simp only [resolveCheckpoint, hsame hop endCkpt hdecode]
  | _ => rfl

/-- The record leads to no removal and no panic. -/
def Quiet (dir : Directory) (rec : Record) : Prop :=
  rec.opType = .endCheckpoint → ∀ endCkpt, decodeEndCheckpoint rec.payload = some endCkpt →
    (∃ records, resolveCheckpoint dir endCkpt = .records records) ∨
      resolveCheckpoint dir endCkpt = .unusable

def Scan.next (dir : Directory) (scan : Scan) (rec : Record) : Scan :=
  match rec.opType with
  | .beginCheckpoint => { scan with lastBeginCkptLSN := rec.lsn }.push rec
  | _ =>
      match checkpointOf dir rec with
      | some (name, records) => (scan.reset name records).push rec
      | none => scan.push rec

theorem Quiet.observe {dir : Directory} {rec : Record} (hquiet : Quiet dir rec)
    (scan : Scan) : scan.observe dir rec = some (dir, scan.next dir rec) := by
  unfold Scan.observe Scan.next checkpointOf
  cases hop : rec.opType with
  | endCheckpoint =>
      cases hdecode : decodeEndCheckpoint rec.payload with
      | none => rfl
      | some endCkpt =>
          rcases hquiet hop endCkpt hdecode with ⟨records, hresolve⟩ | hresolve <;>
            simp only [hresolve]
  | _ => rfl

theorem Yields.readLoop {dir : Directory} {segments : List GoString} {reader : Reader}
    {records : List Record} (hyields : Yields dir segments reader records)
    (hquiet : ∀ rec ∈ records, Quiet dir rec) (scan : Scan) :
    ∃ enough, ∀ fuel, enough ≤ fuel →
      Durable.readLoop segments none fuel dir reader scan =
        some (.returned dir (records.foldl (Scan.next dir) scan)) := by
  induction hyields generalizing scan with
  | finished hfetch =>
      refine ⟨1, fun fuel hfuel => ?_⟩
      obtain ⟨fuel, rfl⟩ := Nat.exists_eq_add_of_le' hfuel
      simp only [Durable.readLoop, loopStep, hfetch, List.foldl_nil]
  | opened hfetch _ ih =>
      obtain ⟨enough, henough⟩ := ih hquiet scan
      refine ⟨enough + 1, fun fuel hfuel => ?_⟩
      cases fuel with
      | zero => omega
      | succ fuel =>
          simp only [Durable.readLoop, loopStep, hfetch, henough fuel (by omega)]
  | @record reader next rec records hfetch _ ih =>
      obtain ⟨enough, henough⟩ :=
        ih (fun other hmem => hquiet other (List.mem_cons_of_mem _ hmem))
          (scan.next dir rec)
      refine ⟨enough + 1, fun fuel hfuel => ?_⟩
      cases fuel with
      | zero => omega
      | succ fuel =>
          have hobserve := (hquiet rec List.mem_cons_self).observe scan
          simp only [Durable.readLoop, loopStep, hfetch, hobserve, Option.any_none,
            Bool.false_eq_true, if_false, henough fuel (by omega), List.foldl_cons]

end SimonMQ.Durable
