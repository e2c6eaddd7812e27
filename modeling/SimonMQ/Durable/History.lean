import SimonMQ.Durable.Compaction
import SimonMQ.Durable.Follow

namespace SimonMQ.Durable

open SimonMQ.Go

/-! The log as it would be had no segment ever been deleted, against what a scan of
the surviving segments makes of it.  A checkpoint file stands for the front of the
log up to the `BEGIN` record of its checkpoint. -/

/-- The LSN of the last `BEGIN` record, zero if there is none. -/
def lastBegin (records : List Record) : Nat :=
  records.foldl
    (fun lsn rec => if rec.opType = .beginCheckpoint then rec.lsn.toNat else lsn) 0

@[simp] theorem lastBegin_nil : lastBegin [] = 0 := rfl

theorem lastBegin_concat (records : List Record) (rec : Record) :
    lastBegin (records ++ [rec]) =
      if rec.opType = .beginCheckpoint then rec.lsn.toNat else lastBegin records := by
  rw [lastBegin, List.foldl_append]
  rfl

theorem lastBegin_append {before after : List Record}
    (hpositive : ∀ rec ∈ after, 0 < rec.lsn.toNat) :
    lastBegin (before ++ after) =
      if lastBegin after = 0 then lastBegin before else lastBegin after := by
  induction after using List.reverseRecOn with
  | nil => simp
  | append_singleton after rec ih =>
      have hrec := hpositive rec (by simp)
      rw [← List.append_assoc, lastBegin_concat, lastBegin_concat,
        ih fun other hmem => hpositive other (by simp [hmem])]
      split_ifs with hbegin <;> first | rfl | omega

theorem lastBegin_le {bound : Nat} {records : List Record}
    (hbound : ∀ rec ∈ records, rec.lsn.toNat ≤ bound) : lastBegin records ≤ bound := by
  induction records using List.reverseRecOn with
  | nil => simp
  | append_singleton records rec ih =>
      rw [lastBegin_concat]
      split_ifs
      · exact hbound rec (by simp)
      · exact ih fun other hmem => hbound other (by simp [hmem])

/-- The records stand for the first `lsn` records of the log. -/
structure Stands (log : List Record) (lsn : Nat) (records : List Record) : Prop where
  fits : ∀ rec ∈ records, rec.Fits
  early : ∀ rec ∈ records, rec.lsn.toNat ≤ lsn
  rebuilt : ({} : Ledger).AdmitsAll (log.take lsn) →
    ({} : Ledger).AdmitsAll records ∧
      ({} : Ledger).followAll records = ({} : Ledger).followAll (log.take lsn)

def Record.endCkpt (rec : Record) : Option EndCheckpoint :=
  if rec.opType = .endCheckpoint then decodeEndCheckpoint rec.payload else none

/-- Every checkpoint file that the log mentions and that still exists is sound. -/
structure Checkpointed (dir : Directory) (log : List Record) : Prop where
  begun : ∀ before rec, before ++ [rec] <+: log → rec.opType = .endCheckpoint →
    lastBegin before ≠ 0
  stands : ∀ before rec endCkpt content, before ++ [rec] <+: log →
    rec.endCkpt = some endCkpt → dir.lookup endCkpt.fileName = some content →
    ∃ records, content = frames records ∧ endCkpt.fileChecksum = checksumFile content ∧
      Stands log (lastBegin before) records

/-- The records hold a whole checkpoint, from its `BEGIN` record at `lsn` to an `END`
record whose file exists. -/
def Anchor (dir : Directory) (records : List Record) (name : GoString) (lsn : Nat) : Prop :=
  ∃ before rec endCkpt, before ++ [rec] <+: records ∧ rec.endCkpt = some endCkpt ∧
    endCkpt.fileName = name ∧ (∃ content, dir.lookup name = some content) ∧
    lastBegin before = lsn ∧ lsn ≠ 0

/-- What the scan has made of `seen`, after `dropped` had been deleted. -/
structure Scanned (dir : Directory) (dropped seen : List Record) (scan : Scan) :
    Prop where
  begun : scan.lastBeginCkptLSN.toNat = lastBegin seen
  early : ∀ rec ∈ scan.records, rec.lsn.toNat ≤ (dropped ++ seen).length
  fits : ∀ rec ∈ scan.records, rec.Fits
  split : lastBegin seen ≠ 0 → ∃ old,
    scan.records = old ++ (dropped ++ seen).drop (lastBegin seen) ∧
      ∀ rec ∈ old, rec.lsn.toNat ≤ lastBegin seen
  rebuilt : (dropped = [] ∨ ∃ name lsn, Anchor dir seen name lsn) →
    ({} : Ledger).AdmitsAll (dropped ++ seen) →
      ({} : Ledger).AdmitsAll scan.records ∧
        ({} : Ledger).followAll scan.records = ({} : Ledger).followAll (dropped ++ seen)
  valid : scan.validCkptLSN ≠ 0 →
    Anchor dir seen scan.validCkptName scan.validCkptLSN.toNat
  last : (∃ name lsn, Anchor dir seen name lsn) → scan.validCkptLSN ≠ 0

/-! The checkpoint of an `END` record, as the scan resolves it. -/

theorem resolveCheckpoint_frames {dir : Directory} {endCkpt : EndCheckpoint}
    {records : List Record} (hfits : ∀ rec ∈ records, rec.Fits)
    (hlookup : dir.lookup endCkpt.fileName = some (frames records))
    (hchecksum : endCkpt.fileChecksum = checksumFile (frames records)) :
    resolveCheckpoint dir endCkpt = .records records := by
  have hscan := scanSegment_frames hfits torn_nil
  rw [List.append_nil] at hscan
  simp only [resolveCheckpoint, hlookup, hchecksum, hscan, ne_eq, not_true_eq_false, if_false]

theorem Checkpointed.checkpointOf {dir : Directory} {log before : List Record}
    {rec : Record} {endCkpt : EndCheckpoint} {content : Bytes}
    (hcheckpointed : Checkpointed dir log) (hat : before ++ [rec] <+: log)
    (hend : rec.endCkpt = some endCkpt)
    (hcontent : dir.lookup endCkpt.fileName = some content) :
    ∃ records, Durable.checkpointOf dir rec = some (endCkpt.fileName, records) ∧
      Stands log (lastBegin before) records := by
  obtain ⟨records, rfl, hchecksum, hstands⟩ :=
    hcheckpointed.stands before rec endCkpt content hat hend hcontent
  refine ⟨records, ?_, hstands⟩
  unfold Record.endCkpt at hend
  split_ifs at hend with hop
  simp only [Durable.checkpointOf, hop, hend,
    resolveCheckpoint_frames hstands.fits hcontent hchecksum]

theorem endCkpt_of_checkpointOf {dir : Directory} {rec : Record} {name : GoString}
    {records : List Record} (hcheckpoint : checkpointOf dir rec = some (name, records)) :
    ∃ endCkpt content, rec.endCkpt = some endCkpt ∧ endCkpt.fileName = name ∧
      dir.lookup name = some content := by
  unfold checkpointOf at hcheckpoint
  split at hcheckpoint
  · rename_i hop
    split at hcheckpoint
    · contradiction
    · rename_i endCkpt hdecode
      split at hcheckpoint
      · rename_i resolved hresolve
        cases hcheckpoint
        refine ⟨endCkpt, ?_⟩
        cases hlookup : dir.lookup endCkpt.fileName with
        | none => simp [resolveCheckpoint, hlookup] at hresolve
        | some content =>
            exact ⟨content, by simp [Record.endCkpt, hop, hdecode], rfl, rfl⟩
      · contradiction
  · contradiction

theorem Checkpointed.quiet {dir : Directory} {log before : List Record} {rec : Record}
    (hcheckpointed : Checkpointed dir log) (hat : before ++ [rec] <+: log) :
    Quiet dir rec := by
  intro hop endCkpt hdecode
  have hend : rec.endCkpt = some endCkpt := by simp [Record.endCkpt, hop, hdecode]
  cases hlookup : dir.lookup endCkpt.fileName with
  | none => exact .inr (by simp [resolveCheckpoint, hlookup])
  | some content =>
      obtain ⟨records, rfl, hchecksum, hstands⟩ :=
        hcheckpointed.stands before rec endCkpt content hat hend hlookup
      exact .inl ⟨records, resolveCheckpoint_frames hstands.fits hlookup hchecksum⟩

/-! Anchors. -/

theorem Anchor.mono {dir : Directory} {records more : List Record} {name : GoString}
    {lsn : Nat} (hanchor : Anchor dir records name lsn) (hle : records <+: more) :
    Anchor dir more name lsn := by
  obtain ⟨before, rec, endCkpt, hat, hrest⟩ := hanchor
  exact ⟨before, rec, endCkpt, hat.trans hle, hrest⟩

theorem anchor_concat_iff {dir : Directory} {records : List Record} {rec : Record}
    (hnone : ∀ endCkpt, rec.endCkpt = some endCkpt → dir.lookup endCkpt.fileName = none)
    {name : GoString} {lsn : Nat} :
    Anchor dir (records ++ [rec]) name lsn ↔ Anchor dir records name lsn := by
  refine ⟨?_, fun hanchor => hanchor.mono (List.prefix_append _ _)⟩
  rintro ⟨before, other, endCkpt, hat, hend, rfl, ⟨content, hcontent⟩, hbegin⟩
  rcases List.prefix_concat_iff.mp hat with heq | hearlier
  · obtain ⟨_, hrec⟩ := List.append_inj' heq rfl
    rw [List.singleton_inj] at hrec
    rw [hrec] at hend
    rw [hnone endCkpt hend] at hcontent
    contradiction
  · exact ⟨before, other, endCkpt, hearlier, hend, rfl, ⟨content, hcontent⟩, hbegin⟩

theorem Anchor.lastBegin_ne_zero {dir : Directory} {records : List Record}
    {name : GoString} {lsn : Nat} (hpositive : ∀ rec ∈ records, 0 < rec.lsn.toNat)
    (hanchor : Anchor dir records name lsn) : lastBegin records ≠ 0 := by
  obtain ⟨before, rec, endCkpt, ⟨after, rfl⟩, _, _, _, rfl, hne⟩ := hanchor
  rw [List.append_assoc, lastBegin_append fun other hmem => hpositive other (by
    rw [List.append_assoc, List.mem_append]; exact .inr hmem)]
  split_ifs with hzero
  · exact hne
  · exact hzero

/-! One turn of the scan. -/

theorem drop_splitAt {lsn : UInt64} {old rest : List Record}
    (hold : ∀ rec ∈ old, rec.lsn.toNat ≤ lsn.toNat)
    (hrest : ∀ rec ∈ rest, lsn.toNat < rec.lsn.toNat) :
    (old ++ rest).drop (splitAt (old ++ rest) lsn) = rest := by
  induction old with
  | nil =>
      cases rest with
      | nil => rfl
      | cons rec rest =>
          have hlt : lsn < rec.lsn := UInt64.lt_iff_toNat_lt.mpr (hrest rec (by simp))
          simp [splitAt, List.findIdx_cons, hlt]
  | cons rec old ih =>
      have hle : ¬ lsn < rec.lsn := by
        rw [UInt64.lt_iff_toNat_lt]
        have := hold rec (by simp)
        omega
      have hnext := ih fun other hmem => hold other (by simp [hmem])
      simpa [splitAt, List.findIdx_cons, hle] using hnext

section Step

variable {dir : Directory} {log dropped seen : List Record} {scan : Scan} {rec : Record}

theorem Numbered.lsn_of_prefix (hnumbered : Numbered 1 log)
    (hat : seen ++ [rec] <+: log) : rec.lsn.toNat = seen.length + 1 := by
  obtain ⟨after, rfl⟩ := hat
  rw [List.append_assoc, numbered_append] at hnumbered
  have := hnumbered.2.1
  omega

theorem Numbered.positive (hnumbered : Numbered 1 log) (hle : seen <+: log) :
    ∀ rec ∈ seen, 0 < rec.lsn.toNat := by
  intro rec hmem
  have := (hnumbered.bounds (hle.subset hmem)).1
  omega

theorem Numbered.le_length (hnumbered : Numbered 1 log) (hle : seen <+: log) :
    ∀ rec ∈ seen, rec.lsn.toNat ≤ seen.length := by
  intro rec hmem
  obtain ⟨after, rfl⟩ := hle
  have := (numbered_append.mp hnumbered).1.bounds hmem
  omega

theorem lsn_of_mem_drop {lsn : Nat} (hnumbered : Numbered 1 log) (hle : seen <+: log)
    (hmem : rec ∈ seen.drop lsn) : lsn < rec.lsn.toNat := by
  obtain ⟨after, rfl⟩ := hle
  have hseen := (numbered_append.mp hnumbered).1
  rw [← List.take_append_drop lsn seen, numbered_append] at hseen
  have hbounds := hseen.2.bounds hmem
  have hlength : (seen.take lsn).length = min lsn seen.length := List.length_take
  have hdrop : 0 < (seen.drop lsn).length := List.length_pos_of_mem hmem
  rw [List.length_drop] at hdrop
  omega

theorem scanned_empty (dir : Directory) (dropped : List Record) :
    Scanned dir dropped [] {} where
  begun := rfl
  early := by simp
  fits := by simp
  split := by simp
  rebuilt := by
    rintro (rfl | ⟨name, lsn, before, rec, endCkpt, hat, _⟩) _
    · exact ⟨trivial, rfl⟩
    · simp at hat
  valid := by simp
  last := by
    rintro ⟨name, lsn, before, rec, endCkpt, hat, _⟩
    simp at hat

theorem Scanned.push {begin : UInt64} (hscanned : Scanned dir dropped seen scan)
    (hnumbered : Numbered 1 log) (hat : dropped ++ (seen ++ [rec]) <+: log)
    (hfits : rec.Fits)
    (hbegin : begin =
      if rec.opType = .beginCheckpoint then rec.lsn else scan.lastBeginCkptLSN)
    (hnone : ∀ endCkpt, rec.endCkpt = some endCkpt → dir.lookup endCkpt.fileName = none) :
    Scanned dir dropped (seen ++ [rec])
      ({ scan with lastBeginCkptLSN := begin }.push rec) := by
  have hlsn : rec.lsn.toNat = (dropped ++ seen).length + 1 := by
    apply hnumbered.lsn_of_prefix
    rwa [List.append_assoc]
  have hlength : (dropped ++ (seen ++ [rec])).length = (dropped ++ seen).length + 1 := by
    simp only [List.length_append, List.length_singleton, Nat.add_assoc]
  constructor
  · rw [lastBegin_concat]
    simp only [Scan.push, hbegin]
    split_ifs
    · rfl
    · exact hscanned.begun
  · intro other hmem
    rw [hlength]
    rcases List.mem_append.mp hmem with hold | hnew
    · have := hscanned.early other hold
      omega
    · rw [List.mem_singleton.mp hnew]
      omega
  · intro other hmem
    rcases List.mem_append.mp hmem with hold | hnew
    · exact hscanned.fits other hold
    · rw [List.mem_singleton.mp hnew]
      exact hfits
  · intro hbegun
    rw [lastBegin_concat] at hbegun ⊢
    split_ifs at hbegun ⊢ with hop
    · refine ⟨scan.records ++ [rec], ?_, fun other hmem => ?_⟩
      · rw [List.drop_eq_nil_of_le (by omega), List.append_nil]
        rfl
      · rcases List.mem_append.mp hmem with hold | hnew
        · have := hscanned.early other hold
          omega
        · rw [List.mem_singleton.mp hnew]
    · obtain ⟨old, hrecords, hold⟩ := hscanned.split hbegun
      refine ⟨old, ?_, hold⟩
      have hbefore : dropped ++ seen <+: log := by
        refine (List.prefix_append _ [rec]).trans ?_
        rwa [List.append_assoc]
      have hle : lastBegin seen ≤ (dropped ++ seen).length :=
        lastBegin_le fun other hmem =>
          hnumbered.le_length hbefore other (List.mem_append_right dropped hmem)
      rw [← List.append_assoc, List.drop_append_of_le_length hle, ← List.append_assoc,
        ← hrecords]
      rfl
  · intro hanchored hadmits
    rw [← List.append_assoc, Ledger.admitsAll_append] at hadmits
    have hbefore : dropped = [] ∨ ∃ name lsn, Anchor dir seen name lsn := by
      rcases hanchored with hnil | ⟨name, lsn, hanchor⟩
      · exact .inl hnil
      · exact .inr ⟨name, lsn, (anchor_concat_iff hnone).mp hanchor⟩
    obtain ⟨hrecords, hfollow⟩ := hscanned.rebuilt hbefore hadmits.1
    simp only [Scan.push]
    rw [← List.append_assoc, Ledger.admitsAll_append, Ledger.followAll_append,
      Ledger.followAll_append, hfollow]
    exact ⟨⟨hrecords, hadmits.2⟩, rfl⟩
  · intro hvalid
    exact (anchor_concat_iff hnone).mpr (hscanned.valid hvalid)
  · rintro ⟨name, lsn, hanchor⟩
    exact hscanned.last ⟨name, lsn, (anchor_concat_iff hnone).mp hanchor⟩

theorem Stands.rebuilt_since {lsn : Nat} {records : List Record}
    (hstands : Stands log lsn records) (hle : seen <+: log) (hlsn : lsn ≤ seen.length)
    (hadmits : ({} : Ledger).AdmitsAll seen) :
    ({} : Ledger).AdmitsAll (records ++ seen.drop lsn) ∧
      ({} : Ledger).followAll (records ++ seen.drop lsn) = ({} : Ledger).followAll seen := by
  have hsince : log.take lsn ++ seen.drop lsn = seen := by
    obtain ⟨after, rfl⟩ := hle
    rw [List.take_append_of_le_length hlsn, List.take_append_drop]
  rw [← hsince, Ledger.admitsAll_append] at hadmits
  obtain ⟨hrecords, hfollow⟩ := hstands.rebuilt hadmits.1
  rw [Ledger.admitsAll_append, Ledger.followAll_append, hfollow]
  refine ⟨⟨hrecords, hadmits.2⟩, ?_⟩
  rw [← Ledger.followAll_append, hsince]

theorem Scanned.drop_records (hscanned : Scanned dir dropped seen scan)
    (hnumbered : Numbered 1 log) (hbefore : dropped ++ seen <+: log)
    (hbegun : lastBegin seen ≠ 0) :
    scan.records.drop (splitAt scan.records scan.lastBeginCkptLSN) =
      (dropped ++ seen).drop (lastBegin seen) := by
  obtain ⟨old, hrecords, hold⟩ := hscanned.split hbegun
  rw [hrecords]
  apply drop_splitAt
  · rw [hscanned.begun]
    exact hold
  · rw [hscanned.begun]
    exact fun other hmem => lsn_of_mem_drop hnumbered hbefore hmem

theorem Scan.mem_reset_push {name : GoString} {records : List Record} {other : Record}
    (hmem : other ∈ ((scan.reset name records).push rec).records) :
    other ∈ records ∨ other ∈ scan.records ∨ other = rec := by
  simp only [Scan.push, Scan.reset, List.mem_append, List.mem_singleton] at hmem
  rcases hmem with (hold | hkeep) | hnew
  · exact .inl hold
  · exact .inr (.inl (List.mem_of_mem_drop hkeep))
  · exact .inr (.inr hnew)

theorem Scanned.reset {name : GoString} {records : List Record}
    (hscanned : Scanned dir dropped seen scan) (hnumbered : Numbered 1 log)
    (hcheckpointed : Checkpointed dir log) (hat : dropped ++ (seen ++ [rec]) <+: log)
    (hfits : rec.Fits) (hcheckpoint : checkpointOf dir rec = some (name, records)) :
    Scanned dir dropped (seen ++ [rec]) ((scan.reset name records).push rec) := by
  obtain ⟨endCkpt, content, hend, rfl, hcontent⟩ := endCkpt_of_checkpointOf hcheckpoint
  have hop : rec.opType = .endCheckpoint := by
    unfold Record.endCkpt at hend
    split_ifs at hend with hop
    exact hop
  have hbegin : lastBegin (seen ++ [rec]) = lastBegin seen := by
    rw [lastBegin_concat, if_neg (by simp [hop])]
  have hat' : dropped ++ seen ++ [rec] <+: log := by rwa [List.append_assoc]
  have hbefore : dropped ++ seen <+: log := (List.prefix_append _ _).trans hat'
  have hpositive : ∀ other ∈ seen, 0 < other.lsn.toNat :=
    fun other hmem => hnumbered.positive hbefore other (List.mem_append_right _ hmem)
  obtain ⟨found, hfound, hstands⟩ := hcheckpointed.checkpointOf hat' hend hcontent
  rw [hcheckpoint] at hfound
  cases hfound
  have hwhole : lastBegin (dropped ++ seen) =
      if lastBegin seen = 0 then lastBegin dropped else lastBegin seen :=
    lastBegin_append hpositive
  have hlsn : rec.lsn.toNat = (dropped ++ seen).length + 1 := hnumbered.lsn_of_prefix hat'
  have hlow : lastBegin (dropped ++ seen) ≤ (dropped ++ seen).length :=
    lastBegin_le (hnumbered.le_length hbefore)
  have hlength : (dropped ++ (seen ++ [rec])).length = (dropped ++ seen).length + 1 := by
    simp only [List.length_append, List.length_singleton, Nat.add_assoc]
  have hkept := hscanned.drop_records hnumbered hbefore
  have hanchors : (∃ name lsn, Anchor dir (seen ++ [rec]) name lsn) → lastBegin seen ≠ 0 := by
    rintro ⟨name, lsn, hanchor⟩
    rw [← hbegin]
    refine hanchor.lastBegin_ne_zero fun other hmem => ?_
    exact hnumbered.positive hat other (List.mem_append_right _ hmem)
  constructor
  · rw [hbegin]
    exact hscanned.begun
  · intro other hother
    rw [hlength]
    rcases Scan.mem_reset_push hother with hold | hkeep | rfl
    · have := hstands.early other hold
      omega
    · have := hscanned.early other hkeep
      omega
    · omega
  · intro other hother
    rcases Scan.mem_reset_push hother with hold | hkeep | rfl
    · exact hstands.fits other hold
    · exact hscanned.fits other hkeep
    · exact hfits
  · intro hbegun
    rw [hbegin] at hbegun ⊢
    rw [if_neg hbegun] at hwhole
    refine ⟨records, ?_, ?_⟩
    · rw [← List.append_assoc, List.drop_append_of_le_length (by omega)]
      simp only [Scan.push, Scan.reset, hkept hbegun, List.append_assoc]
    · rw [← hwhole]
      exact hstands.early
  · intro hanchored hadmits
    have hbegun : lastBegin seen ≠ 0 := by
      rcases hanchored with rfl | hanchor
      · exact hcheckpointed.begun seen rec hat hop
      · exact hanchors hanchor
    rw [if_neg hbegun] at hwhole
    rw [← List.append_assoc, Ledger.admitsAll_append] at hadmits
    rw [hwhole] at hlow hstands
    obtain ⟨hrecords, hfollow⟩ := hstands.rebuilt_since hbefore hlow hadmits.1
    simp only [Scan.push, Scan.reset, hkept hbegun]
    refine ⟨Ledger.admitsAll_append.mpr ⟨hrecords, hfollow ▸ hadmits.2⟩, ?_⟩
    rw [Ledger.followAll_append, hfollow, ← List.append_assoc,
      Ledger.followAll_append _ _ [rec]]
  · intro hvalid
    simp only [Scan.push, Scan.reset] at hvalid ⊢
    refine ⟨seen, rec, endCkpt, List.prefix_rfl, hend, rfl, ⟨content, hcontent⟩,
      hscanned.begun.symm, ?_⟩
    intro hzero
    exact hvalid (UInt64.toNat_inj.mp hzero)
  · intro hanchor hzero
    simp only [Scan.push, Scan.reset] at hzero
    apply hanchors hanchor
    rw [← hscanned.begun, hzero]
    rfl

theorem scanned (hnumbered : Numbered 1 log) (hcheckpointed : Checkpointed dir log)
    (hfits : ∀ rec ∈ log, rec.Fits) (hle : dropped ++ seen <+: log) :
    Scanned dir dropped seen (seen.foldl (Scan.next dir) {}) := by
  induction seen using List.reverseRecOn with
  | nil => exact scanned_empty dir dropped
  | append_singleton seen rec ih =>
      have hat : dropped ++ seen ++ [rec] <+: log := by rwa [List.append_assoc]
      have hscanned := ih ((List.prefix_append _ _).trans hat)
      have hrec : rec.Fits := hfits rec (hat.subset (by simp))
      rw [List.foldl_append, List.foldl_cons, List.foldl_nil]
      generalize seen.foldl (Scan.next dir) {} = scan at hscanned
      cases hcheckpoint : checkpointOf dir rec with
      | some found =>
          have hop : rec.opType ≠ .beginCheckpoint := by
            intro hop
            simp [checkpointOf, hop] at hcheckpoint
          have hnext : scan.next dir rec = (scan.reset found.1 found.2).push rec := by
            unfold Scan.next
            split
            · contradiction
            · rw [hcheckpoint]
          rw [hnext]
          exact hscanned.reset hnumbered hcheckpointed hle hrec hcheckpoint
      | none =>
          have hnone : ∀ endCkpt, rec.endCkpt = some endCkpt →
              dir.lookup endCkpt.fileName = none := by
            intro endCkpt hend
            cases hlookup : dir.lookup endCkpt.fileName with
            | none => rfl
            | some content =>
                obtain ⟨records, hfound, _⟩ :=
                  hcheckpointed.checkpointOf hat hend hlookup
                rw [hcheckpoint] at hfound
                contradiction
          obtain ⟨begin, hbegin⟩ : ∃ begin, begin =
              if rec.opType = .beginCheckpoint then rec.lsn else scan.lastBeginCkptLSN :=
            ⟨_, rfl⟩
          have hnext : scan.next dir rec =
              { scan with lastBeginCkptLSN := begin }.push rec := by
            unfold Scan.next
            split
            · rename_i hop
              rw [hbegin, if_pos hop]
            · rename_i hop
              rw [hcheckpoint, hbegin, if_neg hop]
          rw [hnext]
          exact hscanned.push hnumbered hle hrec hbegin hnone

end Step

end SimonMQ.Durable
