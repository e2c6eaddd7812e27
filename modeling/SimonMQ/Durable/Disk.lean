import SimonMQ.Durable.Append
import SimonMQ.Durable.Discipline
import SimonMQ.Durable.History
import SimonMQ.Durable.Sessions

namespace SimonMQ.Durable

open SimonMQ.Go

/-! What the directory holds at any moment of a run: the surviving segments spell
the end of the log, and where the front is gone a whole checkpoint survives. -/

theorem not_wal_of_ckpt {name : GoString} (hckpt : hasSuffix name ckptSuffix) :
    ¬ hasSuffix name walSuffix := by
  intro hwal
  have hlast := getLast?_of_hasSuffix hckpt (by rfl)
  rw [getLast?_of_hasSuffix hwal (by rfl)] at hlast
  exact absurd hlast (by decide)

theorem not_wal_of_tmp {name : GoString} (htmp : hasSuffix name tmpSuffix) :
    ¬ hasSuffix name walSuffix := by
  intro hwal
  have hlast := getLast?_of_hasSuffix htmp (by rfl)
  rw [getLast?_of_hasSuffix hwal (by rfl)] at hlast
  exact absurd hlast (by decide)

theorem not_ckpt_of_tmp {name : GoString} (htmp : hasSuffix name tmpSuffix) :
    ¬ hasSuffix name ckptSuffix := by
  intro hckpt
  have hlast := getLast?_of_hasSuffix htmp (by rfl)
  rw [getLast?_of_hasSuffix hckpt (by rfl)] at hlast
  exact absurd hlast (by decide)

/-- The surviving segments hold `closed` and `active`, after `dropped` was deleted. -/
structure Disk (dir : Directory) (log dropped : List Record) (closed : List (List Record))
    (active : List Record) (tail : Bytes) : Prop where
  layout : Layout dir (dropped.length + 1) closed active tail
  whole : dropped ++ (closed.flatten ++ active) = log
  torn : Torn tail
  numbered : Numbered 1 log
  fits : ∀ rec ∈ log, rec.Fits
  named : ∀ rec ∈ log, ∀ endCkpt, rec.endCkpt = some endCkpt →
    hasSuffix endCkpt.fileName ckptSuffix
  checkpointed : Checkpointed dir log
  anchored : dropped = [] ∨ ∃ name lsn, Anchor dir (closed.flatten ++ active) name lsn

theorem Stands.mono {log longer records : List Record} {lsn : Nat}
    (hstands : Stands log lsn records) (hle : log <+: longer) (hlsn : lsn ≤ log.length) :
    Stands longer lsn records where
  fits := hstands.fits
  early := hstands.early
  rebuilt := by
    obtain ⟨after, rfl⟩ := hle
    rw [List.take_append_of_le_length hlsn]
    exact hstands.rebuilt

theorem lastBegin_le_length {log before : List Record} (hnumbered : Numbered 1 log)
    (hle : before <+: log) : lastBegin before ≤ log.length := by
  apply lastBegin_le
  intro rec hmem
  have := hnumbered.bounds (hle.subset hmem)
  omega

theorem mem_of_prefix_concat {log before : List Record} {rec : Record}
    (hat : before ++ [rec] <+: log) : rec ∈ log :=
  hat.subset (by simp)

theorem Anchor.congr {dir other : Directory} {records : List Record} {name : GoString}
    {lsn : Nat} (hanchor : Anchor dir records name lsn)
    (hsame : other.lookup name = dir.lookup name) : Anchor other records name lsn := by
  obtain ⟨before, rec, endCkpt, hat, hend, hname, hexists, hbegin⟩ := hanchor
  rw [← hsame] at hexists
  exact ⟨before, rec, endCkpt, hat, hend, hname, hexists, hbegin⟩

namespace Disk

variable {dir : Directory} {log dropped : List Record} {closed : List (List Record)}
  {active : List Record} {tail : Bytes}

theorem mem_log (hdisk : Disk dir log dropped closed active tail) {rec : Record}
    (hmem : rec ∈ closed.flatten ++ active) : rec ∈ log := by
  rw [← hdisk.whole]
  exact List.mem_append_right _ hmem

theorem anchor_named (hdisk : Disk dir log dropped closed active tail)
    {name : GoString} {lsn : Nat}
    (hanchor : Anchor dir (closed.flatten ++ active) name lsn) :
    ∃ rec ∈ log, ∃ endCkpt, rec.endCkpt = some endCkpt ∧ endCkpt.fileName = name := by
  obtain ⟨before, rec, endCkpt, hat, hend, hname, _⟩ := hanchor
  exact ⟨rec, hdisk.mem_log (mem_of_prefix_concat hat), endCkpt, hend, hname⟩

theorem lastBegin_log (hdisk : Disk dir log dropped closed active tail)
    (hbegun : lastBegin (closed.flatten ++ active) ≠ 0) :
    lastBegin log = lastBegin (closed.flatten ++ active) := by
  have hpositive : ∀ rec ∈ closed.flatten ++ active, 0 < rec.lsn.toNat :=
    fun rec hmem => hdisk.numbered.positive List.prefix_rfl rec (hdisk.mem_log hmem)
  rw [← hdisk.whole, lastBegin_append hpositive, if_neg hbegun]

theorem congr (hdisk : Disk dir log dropped closed active tail) {other : Directory}
    (hwal : ∀ name, hasSuffix name walSuffix → other.lookup name = dir.lookup name)
    (hckpt : ∀ rec ∈ log, ∀ endCkpt, rec.endCkpt = some endCkpt →
      other.lookup endCkpt.fileName = dir.lookup endCkpt.fileName) :
    Disk other log dropped closed active tail :=
  { hdisk with
    layout := hdisk.layout.congr hwal
    checkpointed :=
      { hdisk.checkpointed with
        stands := by
          intro before rec endCkpt content hat hend hcontent
          rw [hckpt rec (mem_of_prefix_concat hat) endCkpt hend] at hcontent
          exact hdisk.checkpointed.stands before rec endCkpt content hat hend hcontent }
    anchored := by
      rcases hdisk.anchored with hnil | ⟨name, lsn, hanchor⟩
      · exact .inl hnil
      · obtain ⟨rec, hmem, endCkpt, hend, rfl⟩ := hdisk.anchor_named hanchor
        exact .inr ⟨_, lsn, hanchor.congr (hckpt rec hmem endCkpt hend)⟩ }

theorem reshape (hdisk : Disk dir log dropped closed active tail) {other : Directory}
    {closed' : List (List Record)} {active' : List Record} {tail' : Bytes}
    (hlayout : Layout other (dropped.length + 1) closed' active' tail')
    (hrecords : closed'.flatten ++ active' = closed.flatten ++ active)
    (htorn : Torn tail')
    (hckpt : ∀ name, hasSuffix name ckptSuffix → other.lookup name = dir.lookup name) :
    Disk other log dropped closed' active' tail' where
  layout := hlayout
  whole := by rw [hrecords, hdisk.whole]
  torn := htorn
  numbered := hdisk.numbered
  fits := hdisk.fits
  named := hdisk.named
  checkpointed :=
    { hdisk.checkpointed with
      stands := by
        intro before rec endCkpt content hat hend hcontent
        rw [hckpt _ (hdisk.named rec (mem_of_prefix_concat hat) endCkpt hend)] at hcontent
        exact hdisk.checkpointed.stands before rec endCkpt content hat hend hcontent }
  anchored := by
    rw [hrecords]
    rcases hdisk.anchored with hnil | ⟨name, lsn, hanchor⟩
    · exact .inl hnil
    · obtain ⟨rec, hmem, endCkpt, hend, rfl⟩ := hdisk.anchor_named hanchor
      exact .inr ⟨_, lsn, hanchor.congr (hckpt _ (hdisk.named rec hmem endCkpt hend))⟩

end Disk

/-- What a record must bring along to join the log: an `END` record comes after its
`BEGIN` and names a sound checkpoint file. -/
structure Appendable (dir : Directory) (log : List Record) (rec : Record) : Prop where
  named : ∀ endCkpt, rec.endCkpt = some endCkpt → hasSuffix endCkpt.fileName ckptSuffix
  begun : rec.opType = .endCheckpoint → lastBegin log ≠ 0
  stands : ∀ endCkpt content, rec.endCkpt = some endCkpt →
    dir.lookup endCkpt.fileName = some content →
    ∃ records, content = frames records ∧ endCkpt.fileChecksum = checksumFile content ∧
      Stands log (lastBegin log) records

theorem appendable_of_not_end {dir : Directory} {log : List Record} {rec : Record}
    (hop : rec.opType ≠ .endCheckpoint) : Appendable dir log rec where
  named := by simp [Record.endCkpt, hop]
  begun := fun hend => absurd hend hop
  stands := by simp [Record.endCkpt, hop]

namespace Disk

variable {dir : Directory} {log dropped : List Record} {closed : List (List Record)}
  {active : List Record} {tail : Bytes}

theorem extend (hdisk : Disk dir log dropped closed active tail) {other : Directory}
    {closed' : List (List Record)} {active' : List Record} {rec : Record}
    (hlayout : Layout other (dropped.length + 1) closed' active' [])
    (hrecords : closed'.flatten ++ active' = closed.flatten ++ active ++ [rec])
    (hckpt : ∀ name, hasSuffix name ckptSuffix → other.lookup name = dir.lookup name)
    (hlsn : rec.lsn.toNat = log.length + 1) (hfits : rec.Fits)
    (happend : Appendable dir log rec) :
    Disk other (log ++ [rec]) dropped closed' active' [] := by
  have hle : log <+: log ++ [rec] := List.prefix_append _ _
  have hmem : ∀ found ∈ log ++ [rec], found ∈ log ∨ found = rec := by
    intro found hfound
    simpa using hfound
  have hnamed : ∀ found ∈ log ++ [rec], ∀ endCkpt, found.endCkpt = some endCkpt →
      hasSuffix endCkpt.fileName ckptSuffix := by
    intro found hfound
    rcases hmem found hfound with hold | rfl
    · exact hdisk.named found hold
    · exact happend.named
  refine ⟨hlayout, ?_, torn_nil, ?_, ?_, hnamed, ⟨?_, ?_⟩, ?_⟩
  · rw [hrecords, ← hdisk.whole, List.append_assoc, List.append_assoc, List.append_assoc]
  · exact numbered_append.mpr ⟨hdisk.numbered, by omega, trivial⟩
  · intro found hfound
    rcases hmem found hfound with hold | rfl
    · exact hdisk.fits found hold
    · exact hfits
  · intro before found hat hop
    rcases List.prefix_concat_iff.mp hat with heq | hearlier
    · obtain ⟨rfl, hfound⟩ := List.append_inj' heq rfl
      rw [List.singleton_inj.mp hfound] at hop
      exact happend.begun hop
    · exact hdisk.checkpointed.begun before found hearlier hop
  · intro before found endCkpt content hat hend hcontent
    rw [hckpt _ (hnamed found (mem_of_prefix_concat hat) endCkpt hend)] at hcontent
    rcases List.prefix_concat_iff.mp hat with heq | hearlier
    · obtain ⟨rfl, hfound⟩ := List.append_inj' heq rfl
      rw [List.singleton_inj.mp hfound] at hend
      obtain ⟨records, hframes, hchecksum, hstands⟩ :=
        happend.stands endCkpt content hend hcontent
      exact ⟨records, hframes, hchecksum,
        hstands.mono hle (lastBegin_le_length hdisk.numbered List.prefix_rfl)⟩
    · obtain ⟨records, hframes, hchecksum, hstands⟩ :=
        hdisk.checkpointed.stands before found endCkpt content hearlier hend hcontent
      exact ⟨records, hframes, hchecksum, hstands.mono hle
        (lastBegin_le_length hdisk.numbered ((List.prefix_append _ _).trans hearlier))⟩
  · rw [hrecords]
    rcases hdisk.anchored with hnil | ⟨name, lsn, hanchor⟩
    · exact .inl hnil
    · obtain ⟨found, hfound, endCkpt, hend, rfl⟩ := hdisk.anchor_named hanchor
      have hkept := hanchor.congr (hckpt _ (hdisk.named found hfound endCkpt hend))
      exact .inr ⟨_, lsn, hkept.mono (List.prefix_append _ _)⟩

theorem removeCheckpoint (hdisk : Disk dir log dropped closed active tail)
    {name : GoString} (hsuffix : hasSuffix name ckptSuffix)
    (hkeeps : dropped = [] ∨ ∃ other lsn, other ≠ name ∧
      Anchor dir (closed.flatten ++ active) other lsn) :
    Disk (dir.erase name) log dropped closed active tail :=
  { hdisk with
    layout := hdisk.layout.congr fun other hwal => by
      rw [GoMap.lookup_erase_eq, if_neg]
      rintro rfl
      exact not_wal_of_ckpt hsuffix hwal
    checkpointed :=
      { hdisk.checkpointed with
        stands := by
          intro before rec endCkpt content hat hend hcontent
          rw [GoMap.lookup_erase_eq] at hcontent
          split_ifs at hcontent
          exact hdisk.checkpointed.stands before rec endCkpt content hat hend hcontent }
    anchored := by
      rcases hkeeps with hnil | ⟨other, lsn, hother, hanchor⟩
      · exact .inl hnil
      · refine .inr ⟨other, lsn, hanchor.congr ?_⟩
        rw [GoMap.lookup_erase_eq, if_neg hother] }

theorem removeSegment {records : List Record}
    (hdisk : Disk dir log dropped (records :: closed) active tail) {name : GoString}
    {lsn : Nat} (hanchor : Anchor dir ((records :: closed).flatten ++ active) name lsn)
    (hlsn : dropped.length + 1 + records.length ≤ lsn) :
    Disk (dir.erase (segName (dropped.length + 1))) log (dropped ++ records) closed active
        tail ∧
      Anchor (dir.erase (segName (dropped.length + 1))) (closed.flatten ++ active) name
        lsn := by
  have hlayout := hdisk.layout.dropOldest
  have hckpt : ∀ other, hasSuffix other ckptSuffix →
      (dir.erase (segName (dropped.length + 1))).lookup other = dir.lookup other := by
    intro other hsuffix
    rw [GoMap.lookup_erase_eq, if_neg]
    rintro rfl
    exact not_wal_of_ckpt hsuffix (hasSuffix_segName _)
  have hlength : dropped.length + 1 + records.length = (dropped ++ records).length + 1 := by
    rw [List.length_append]
    omega
  have hrest : Anchor (dir.erase (segName (dropped.length + 1)))
      (closed.flatten ++ active) name lsn := by
    obtain ⟨found, hfound, named, hend, rfl⟩ := hdisk.anchor_named hanchor
    have hsame := hckpt _ (hdisk.named found hfound named hend)
    obtain ⟨before, rec, endCkpt, hat, hend, hname, hexists, hbegin, hne⟩ := hanchor
    rw [← hsame] at hexists
    rw [List.flatten_cons, List.append_assoc] at hat
    have hbound : ∀ other ∈ records, other.lsn.toNat < dropped.length + 1 + records.length := by
      intro other hmem
      have hnumbered := hdisk.layout.numbered
      rw [List.flatten_cons, List.append_assoc, numbered_append] at hnumbered
      exact (hnumbered.1.bounds hmem).2
    have hbehind : records <+: before := by
      rcases List.prefix_or_prefix_of_prefix
          ((List.prefix_append before [rec]).trans hat) (List.prefix_append records _) with
        hshort | hlong
      · have hle : lastBegin before ≤ dropped.length + records.length := by
          apply lastBegin_le
          intro other hmem
          have := hbound other (hshort.subset hmem)
          omega
        omega
      · exact hlong
    obtain ⟨later, rfl⟩ := hbehind
    rw [List.append_assoc, List.prefix_append_right_inj] at hat
    refine ⟨later, rec, endCkpt, hat, hend, hname, hexists, ?_, hne⟩
    have hpositive : ∀ other ∈ later, 0 < other.lsn.toNat := by
      intro other hmem
      refine hdisk.numbered.positive List.prefix_rfl other (hdisk.mem_log ?_)
      rw [List.flatten_cons, List.append_assoc]
      exact List.mem_append_right _ (hat.subset (List.mem_append_left _ hmem))
    rw [lastBegin_append hpositive] at hbegin
    split_ifs at hbegin
    · have hle : lastBegin records ≤ dropped.length + records.length := by
        apply lastBegin_le
        intro other hmem
        have := hbound other hmem
        omega
      omega
    · exact hbegin
  rw [hlength] at hlayout
  refine ⟨⟨hlayout, ?_, hdisk.torn, hdisk.numbered, hdisk.fits, hdisk.named, ?_,
    .inr ⟨name, lsn, hrest⟩⟩, hrest⟩
  · rw [List.append_assoc, ← hdisk.whole, List.flatten_cons, List.append_assoc]
  · exact { hdisk.checkpointed with
      stands := by
        intro before rec endCkpt content hat hend hcontent
        rw [hckpt _ (hdisk.named rec (mem_of_prefix_concat hat) endCkpt hend)] at hcontent
        exact hdisk.checkpointed.stands before rec endCkpt content hat hend hcontent }

/-! Reading the directory back. -/

theorem scanned (hdisk : Disk dir log dropped closed active tail) :
    Scanned dir dropped (closed.flatten ++ active)
      ((closed.flatten ++ active).foldl (Scan.next dir) {}) :=
  Durable.scanned hdisk.numbered hdisk.checkpointed hdisk.fits
    (by rw [hdisk.whole])

theorem quiet (hdisk : Disk dir log dropped closed active tail) {rec : Record}
    (hmem : rec ∈ log) : Quiet dir rec := by
  obtain ⟨before, after, rfl⟩ := List.append_of_mem hmem
  have hat : before ++ [rec] <+: before ++ rec :: after := ⟨after, by simp⟩
  exact hdisk.checkpointed.quiet hat

theorem readLoop (hdisk : Disk dir log dropped closed active tail) :
    ∃ enough, ∀ fuel, enough ≤ fuel →
      Durable.readLoop (segmentNames (dropped.length + 1) closed) none fuel dir
          ⟨segName (dropped.length + 1), 0⟩ {} =
        some (.returned dir ((closed.flatten ++ active).foldl (Scan.next dir) {})) :=
  (hdisk.layout.yields (fun rec hmem => hdisk.fits rec (hdisk.mem_log hmem))
    hdisk.torn).readLoop (fun _ hmem => hdisk.quiet (hdisk.mem_log hmem)) {}

end Disk

end SimonMQ.Durable
