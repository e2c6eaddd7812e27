import SimonMQ.Durable.Keeping

namespace SimonMQ.Durable

open SimonMQ.Go

/-! The steps of a checkpoint, one after the other. -/

/-- A coordinator in service, over its files. -/
structure Coordinator.Sane (c : Coordinator) (log dropped : List Record)
    (closed : List (List Record)) (active : List Record) : Prop where
  disk : Disk c.log.dir log dropped closed active []
  live : Live c.log (dropped.length + 1) closed active
  keeps : c.checkpoint.Keeps c.log log dropped closed active
  awake : c.checkpoint ≠ .idle → active ≠ []

theorem Live.withDir {w : Wal} {base : Nat} {closed : List (List Record)}
    {active : List Record} (hlive : Live w base closed active) {dir : Directory}
    (hlayout : Layout dir base closed active []) :
    Live { w with dir } base closed active where
  ready := ⟨hlayout, hlive.ready.file, hlive.ready.nextLSN⟩
  usable := hlive.usable
  size := hlive.size

theorem Live.withSegments {w : Wal} {base : Nat} {closed : List (List Record)}
    {active : List Record} (hlive : Live w base closed active) (segments : List GoString) :
    Live { w with segments } base closed active where
  ready := ⟨hlive.ready.layout, hlive.ready.file, hlive.ready.nextLSN⟩
  usable := hlive.usable
  size := hlive.size

theorem Live.removeSegment {w : Wal} {dropped records : List Record}
    {closed : List (List Record)} {active : List Record} {dir : Directory}
    (hlive : Live w (dropped.length + 1) (records :: closed) active)
    (hlayout : Layout dir ((dropped ++ records).length + 1) closed active []) :
    Live { w with dir } ((dropped ++ records).length + 1) closed active where
  ready := by
    refine ⟨hlayout, ?_, ?_⟩
    · have hfile := hlive.ready.file
      rw [List.flatten_cons, List.length_append] at hfile
      rw [hfile, List.length_append]
      congr 1
      omega
    · have hnext := hlive.ready.nextLSN
      rw [List.flatten_cons, List.append_assoc, List.length_append] at hnext
      rw [hnext]
      congr 1
      simp only [List.length_append]
      omega
  usable := hlive.usable
  size := hlive.size

section Advance

variable {c : Coordinator} {log dropped : List Record} {closed : List (List Record)}
  {active : List Record}

/-! `ReadUpTo`. -/

theorem Doubled.head {segments : List GoString} {base stop : Nat}
    {closed : List (List Record)} (hdoubled : Doubled segments base closed stop) :
    ∃ rest, segments = segName base :: rest := by
  obtain ⟨before, records, after, _, rfl, _⟩ := hdoubled
  cases before with
  | nil => exact ⟨_, rfl⟩
  | cons first before => exact ⟨_, rfl⟩

theorem Begun.base_le {dir : Directory} {tail : Bytes} {lsn : UInt64}
    (hbegun : Begun (closed.flatten ++ active) lsn)
    (hdisk : Disk dir log dropped closed active tail) : dropped.length < lsn.toNat := by
  by_contra hlow
  have hnone : ∀ records : List Record, (∀ rec ∈ records, dropped.length < rec.lsn.toNat) →
      lastBegin records = 0 ∨ dropped.length < lastBegin records := by
    intro records habove
    induction records using List.reverseRecOn with
    | nil => exact .inl rfl
    | append_singleton records rec ih =>
        rw [lastBegin_concat]
        split_ifs
        · exact .inr (habove rec (by simp))
        · exact ih fun other hmem => habove other (by simp [hmem])
  rcases hnone _ (fun rec hmem => by
    have := (hdisk.layout.numbered.bounds hmem).1
    omega) with hzero | habove
  · exact hbegun.positive (by rw [← hbegun.found, hzero])
  · rw [hbegun.found] at habove
    omega

theorem Coordinator.Sane.open {lsn : UInt64} (hsane : c.Sane log dropped closed active)
    (hphase : c.checkpoint = .begun lsn) :
    ∃ reader, c.log.openReader = some reader ∧
      Coordinator.Sane { c with checkpoint := .reading lsn reader {} } log dropped closed
        active := by
  have hkeeps := hsane.keeps
  rw [hphase] at hkeeps
  obtain ⟨hbegun, hrooted, hlist⟩ := hkeeps
  have hnonempty := hsane.awake (by rw [hphase]; simp)
  refine ⟨⟨segName (dropped.length + 1), 0⟩, ?_, hsane.disk, hsane.live,
    ⟨hbegun, hrooted, ?_⟩, fun _ => hnonempty⟩
  · rcases hlist with hplain | ⟨stop, _, hdoubled⟩
    · obtain ⟨rest, hrest⟩ := segmentNames_eq_cons (dropped.length + 1) closed
      exact openReader_of_head (hplain.trans hrest)
    · obtain ⟨rest, hrest⟩ := hdoubled.head
      exact openReader_of_head hrest
  · rcases hlist with hplain | ⟨stop, hstop, hdoubled⟩
    · exact .inl ⟨hplain, [], _, Position.start _ closed active, rfl, rfl,
        hbegun.base_le hsane.disk⟩
    · exact .inr (looping_start hdoubled hstop)

theorem stands_of_scan {dir : Directory} {tail : Bytes} {seen : List Record} {lsn : UInt64}
    (hdisk : Disk dir log dropped closed active tail)
    (hrooted : Rooted dir dropped (closed.flatten ++ active) lsn)
    (hseen : seen <+: closed.flatten ++ active)
    (hlsn : dropped.length + seen.length = lsn.toNat) :
    Stands log lsn.toNat (seen.foldl (Scan.next dir) {}).records := by
  have hle : dropped ++ seen <+: log := by
    rw [← hdisk.whole]
    exact (List.prefix_append_right_inj dropped).mpr hseen
  have hscanned := scanned hdisk.numbered hdisk.checkpointed hdisk.fits hle
  have hlength : (dropped ++ seen).length = lsn.toNat := by
    rw [List.length_append, hlsn]
  have htake : log.take lsn.toNat = dropped ++ seen := by
    obtain ⟨after, rfl⟩ := hle
    rw [← hlength]
    exact List.take_left' rfl
  refine ⟨hscanned.fits, ?_, ?_⟩
  · rw [← hlength]
    exact hscanned.early
  · rw [htake]
    apply hscanned.rebuilt
    rcases hrooted with hnil | ⟨front, name, begin, hfront, hearly, hanchor⟩
    · exact .inl hnil
    · refine .inr ⟨name, begin, hanchor.mono ?_⟩
      exact List.prefix_of_prefix_length_le hfront hseen (by omega)

theorem Coordinator.Sane.read {lsn : UInt64} {reader : Reader} {scan : Scan}
    (hsane : c.Sane log dropped closed active)
    (hphase : c.checkpoint = .reading lsn reader scan) :
    (∃ next scan', loopStep c.log.segments (some lsn) c.log.dir reader scan =
        .running c.log.dir next scan' ∧
      Coordinator.Sane (c.moved c.log.dir (.reading lsn next scan')) log dropped closed
        active) ∨
    ∃ scan', loopStep c.log.segments (some lsn) c.log.dir reader scan =
        .returned c.log.dir scan' ∧
      Coordinator.Sane (c.moved c.log.dir (.fetched lsn scan'.records)) log dropped closed
        active := by
  have hkeeps := hsane.keeps
  rw [hphase] at hkeeps
  obtain ⟨hbegun, hrooted, hreader⟩ := hkeeps
  have hnonempty := hsane.awake (by rw [hphase]; simp)
  have hdisk := hsane.disk
  have hfits : ∀ rec ∈ closed.flatten ++ active, rec.Fits :=
    fun rec hmem => hdisk.fits rec (hdisk.mem_log hmem)
  rcases hreader with
    ⟨hplain, seen, remaining, hposition, hseen, hscan, hearly⟩ | hlooping
  · have hremain : remaining ≠ [] := by
      rintro rfl
      have hle := hbegun.le_length hdisk
      rw [List.append_nil] at hseen
      have hlength := congrArg List.length hdisk.whole
      rw [List.length_append, ← hseen] at hlength
      omega
    rcases hdisk.layout.fetch_position hfits hplain hposition hremain with
      ⟨rec, rest, next, rfl, hfetch, hnext⟩ | ⟨next, hfetch, hnext⟩
    · have hmem : rec ∈ log := by
        apply hdisk.mem_log
        rw [← hseen]
        simp
      have hobserve := (hdisk.quiet hmem).observe scan
      have hfold : scan.next c.log.dir rec =
          (seen ++ [rec]).foldl (Scan.next c.log.dir) {} := by
        rw [List.foldl_append, ← hscan]
        rfl
      have hlsn : rec.lsn.toNat = dropped.length + seen.length + 1 := by
        have hat : dropped ++ seen ++ [rec] <+: log := by
          rw [← hdisk.whole, ← hseen]
          exact ⟨rest, by simp⟩
        have := hdisk.numbered.lsn_of_prefix hat
        rw [List.length_append] at this
        omega
      by_cases hlast : lsn ≤ rec.lsn
      · refine .inr ⟨scan.next c.log.dir rec, ?_, hdisk, hsane.live,
          ⟨hbegun, hplain, ?_⟩, fun _ => hnonempty⟩
        · simp only [loopStep, hfetch, hobserve, Option.any_some, hlast, decide_true,
            if_true]
        · rw [hfold]
          refine stands_of_scan hdisk hrooted ⟨rest, by rw [← hseen]; simp⟩ ?_
          rw [UInt64.le_iff_toNat_le] at hlast
          rw [List.length_append, List.length_singleton]
          omega
      · refine .inl ⟨next, scan.next c.log.dir rec, ?_, hdisk, hsane.live,
          ⟨hbegun, hrooted, .inl ⟨hplain, seen ++ [rec], rest, hnext, ?_, hfold, ?_⟩⟩,
          fun _ => hnonempty⟩
        · simp only [loopStep, hfetch, hobserve, Option.any_some, hlast, decide_false,
            Bool.false_eq_true, if_false]
        · rw [← hseen]
          simp
        · rw [UInt64.le_iff_toNat_le] at hlast
          rw [List.length_append, List.length_singleton]
          omega
    · refine .inl ⟨next, scan, ?_, hdisk, hsane.live,
        ⟨hbegun, hrooted, .inl ⟨hplain, seen, remaining, hnext, hseen, hscan, hearly⟩⟩,
        fun _ => hnonempty⟩
      simp only [loopStep, hfetch]
  · have hclosedFits : ∀ rec ∈ closed.flatten, rec.Fits :=
      fun rec hmem => hfits rec (List.mem_append_left _ hmem)
    rcases hlooping.fetch hdisk.layout hclosedFits with
      ⟨rec, next, hfetch, hmem, hearly, hnext⟩ | ⟨next, hfetch, hnext⟩
    · have hobserve := (hdisk.quiet
        (hdisk.mem_log (List.mem_append_left active hmem))).observe scan
      have hlast : ¬ lsn ≤ rec.lsn := by
        rw [UInt64.le_iff_toNat_le]
        omega
      refine .inl ⟨next, scan.next c.log.dir rec, ?_, hdisk, hsane.live,
        ⟨hbegun, hrooted, .inr hnext⟩, fun _ => hnonempty⟩
      simp only [loopStep, hfetch, hobserve, Option.any_some, hlast, decide_false,
        Bool.false_eq_true, if_false]
    · refine .inl ⟨next, scan, ?_, hdisk, hsane.live, ⟨hbegun, hrooted, .inr hnext⟩,
        fun _ => hnonempty⟩
      simp only [loopStep, hfetch]

/-! The checkpoint file. -/

/-- The id that the uuid package returns is plain text, and no file of the log carries
it. -/
structure Choices.Fresh (choices : Choices) (log : List Record) : Prop where
  ascii : ∀ byte ∈ choices.id, byte < 0x80
  unmentioned : ∀ rec ∈ log, ∀ endCkpt, rec.endCkpt = some endCkpt →
    endCkpt.fileName ≠ checkpointFileName choices.id

instance (choices : Choices) (log : List Record) : Decidable (choices.Fresh log) :=
  have : Decidable (∀ byte ∈ choices.id, byte < 0x80) := List.decidableBAll _ choices.id
  decidable_of_iff
    ((∀ byte ∈ choices.id, byte < 0x80) ∧ ∀ rec ∈ log, ∀ endCkpt ∈ rec.endCkpt,
      endCkpt.fileName ≠ checkpointFileName choices.id)
    ⟨fun h => ⟨h.1, h.2⟩, fun h => ⟨h.ascii, h.unmentioned⟩⟩

theorem Choices.Fresh.unused {choices : Choices} (hfresh : choices.Fresh log) :
    Unused log (checkpointFileName choices.id) where
  suffix := hasSuffix_append _ _
  valid := by
    apply Utf8.valid_of_ascii
    have hhead : ∀ byte ∈ lit "checkpoint-", byte < 0x80 := by decide +kernel
    have htail : ∀ byte ∈ ckptSuffix, byte < 0x80 := by decide +kernel
    intro byte hbyte
    rcases List.mem_append.mp hbyte with hfront | hsuffix
    · rcases List.mem_append.mp hfront with hname | hid
      · exact hhead byte hname
      · exact hfresh.ascii byte hid
    · exact htail byte hsuffix
  unmentioned := hfresh.unmentioned

theorem Stands.compacted {lsn : Nat} {records : List Record}
    (hstands : Stands log lsn records) (order : CompactionOrder) :
    Stands log lsn (compactRecords order records) where
  fits := fun rec hmem => hstands.fits rec (mem_of_mem_compactRecords hmem)
  early := fun rec hmem => hstands.early rec (mem_of_mem_compactRecords hmem)
  rebuilt := by
    intro hadmits
    obtain ⟨hrecords, hsame⟩ := hstands.rebuilt hadmits
    obtain ⟨hcompacted, hkeeps⟩ := compactRecords_keeps hrecords order
    exact ⟨hcompacted, hkeeps.trans hsame⟩

theorem Disk.ofUnused {dir other : Directory} {tail : Bytes} {name : GoString}
    (hdisk : Disk dir log dropped closed active tail) (hunused : Unused log name)
    (hsame : ∀ file, file ≠ name → file ≠ name ++ tmpSuffix →
      other.lookup file = dir.lookup file) :
    Disk other log dropped closed active tail := by
  have htmp := hasSuffix_append name tmpSuffix
  apply hdisk.congr
  · intro file hwal
    apply hsame file
    · rintro rfl
      exact not_wal_of_ckpt hunused.suffix hwal
    · rintro rfl
      exact not_wal_of_tmp htmp hwal
  · intro rec hmem endCkpt hend
    apply hsame
    · exact hunused.unmentioned rec hmem endCkpt hend
    · intro heq
      have hckpt := hdisk.named rec hmem endCkpt hend
      rw [heq] at hckpt
      exact not_ckpt_of_tmp htmp hckpt

theorem Coordinator.Sane.create {lsn : UInt64} {records : List Record} {choices : Choices}
    (hsane : c.Sane log dropped closed active) (hphase : c.checkpoint = .fetched lsn records)
    (hfresh : choices.Fresh log) :
    Coordinator.Sane
      (c.moved (c.log.dir.insert (checkpointFileName choices.id ++ tmpSuffix) [])
        (.writing lsn (checkpointFileName choices.id)
          (frames (compactRecords choices.order records)))) log dropped closed active := by
  have hkeeps := hsane.keeps
  rw [hphase] at hkeeps
  obtain ⟨hbegun, hplain, hstands⟩ := hkeeps
  have hunused := hfresh.unused
  have hdisk : Disk (c.log.dir.insert (checkpointFileName choices.id ++ tmpSuffix) []) log
      dropped closed active [] := by
    apply hsane.disk.ofUnused hunused
    intro file _ hother
    rw [GoMap.lookup_insert_eq, if_neg hother]
  refine ⟨hdisk, hsane.live.withDir hdisk.layout,
    ⟨hbegun, hplain, hunused, _, [], hstands.compacted choices.order, ?_, rfl⟩,
    fun _ => hsane.awake (by rw [hphase]; simp)⟩
  simp only [moved, GoMap.lookup_insert_eq, if_true]

theorem Coordinator.Sane.write {lsn : UInt64} {name : GoString} {left : Bytes}
    (hsane : c.Sane log dropped closed active)
    (hphase : c.checkpoint = .writing lsn name left) (count : Nat) :
    Coordinator.Sane
      (c.moved (c.log.dir.appendTo (name ++ tmpSuffix) (left.take count))
        (.writing lsn name (left.drop count))) log dropped closed active := by
  have hkeeps := hsane.keeps
  rw [hphase] at hkeeps
  obtain ⟨hbegun, hplain, hunused, found, written, hstands, hwritten, hleft⟩ := hkeeps
  have hdisk : Disk (c.log.dir.appendTo (name ++ tmpSuffix) (left.take count)) log dropped
      closed active [] := by
    apply hsane.disk.ofUnused hunused
    intro file _ hother
    rw [Directory.lookup_appendTo, if_neg hother]
  refine ⟨hdisk, hsane.live.withDir hdisk.layout,
    ⟨hbegun, hplain, hunused, found, written ++ left.take count, hstands, ?_, ?_⟩,
    fun _ => hsane.awake (by rw [hphase]; simp)⟩
  · simp only [moved, Directory.lookup_appendTo, if_true, hwritten, Option.map_some]
  · rw [List.append_assoc, List.take_append_drop, hleft]

theorem Coordinator.Sane.install {lsn : UInt64} {name : GoString}
    (hsane : c.Sane log dropped closed active)
    (hphase : c.checkpoint = .writing lsn name []) :
    ∃ content, c.log.dir.lookup (name ++ tmpSuffix) = some content ∧
      Coordinator.Sane
        (c.moved (c.log.dir.rename (name ++ tmpSuffix) name)
          (.installed lsn name (checksumFile content))) log dropped closed active := by
  have hkeeps := hsane.keeps
  rw [hphase] at hkeeps
  obtain ⟨hbegun, hplain, hunused, found, written, hstands, hwritten, hleft⟩ := hkeeps
  rw [List.append_nil] at hleft
  subst hleft
  have hdisk : Disk (c.log.dir.rename (name ++ tmpSuffix) name) log dropped closed active
      [] := by
    apply hsane.disk.ofUnused hunused
    intro file hname hother
    rw [Directory.lookup_rename hwritten, if_neg hname, if_neg hother]
  refine ⟨_, hwritten, hdisk, hsane.live.withDir hdisk.layout,
    ⟨hbegun, hplain, hunused, found, hstands, ?_, rfl⟩,
    fun _ => hsane.awake (by rw [hphase]; simp)⟩
  simp only [moved, Directory.lookup_rename hwritten, if_true]

/-! Deleting what the checkpoint covers. -/

theorem take_staleCount_le (lsn : UInt64) (base : Nat) (closed : List (List Record)) :
    closed.take (staleCount lsn base closed) = [] ∨
      base + (closed.take (staleCount lsn base closed)).flatten.length ≤ lsn.toNat := by
  induction closed generalizing base with
  | nil => exact .inl rfl
  | cons records closed ih =>
      rw [staleCount]
      split_ifs with hlater
      · exact .inl rfl
      · right
        rw [List.take_succ_cons, List.flatten_cons, List.length_append]
        rcases ih (base + records.length) with hnil | hle
        · rw [hnil]
          simp only [List.flatten_nil, List.length_nil]
          omega
        · omega

theorem Disk.sweeping {w : Wal} {lsn : UInt64} {name : GoString} {tail : Bytes}
    (hdisk : Disk w.dir log dropped closed active tail)
    (hsegments : w.segments = segmentNames (dropped.length + 1) closed)
    (hanchor : lsn ≠ 0 → Anchor w.dir (closed.flatten ++ active) name lsn.toNat) :
    ∃ stale, segmentsBefore lsn w.segments = some stale ∧
      Sweeping w dropped closed active name stale stale := by
  refine ⟨_, by rw [hsegments, segmentsBefore_segmentNames lsn hdisk.layout.active_lt],
    [], _, _, rfl, hsegments, by simp, (List.take_append_drop _ closed).symm, rfl, ?_⟩
  rcases take_staleCount_le lsn (dropped.length + 1) closed with hnil | hle
  · exact .inl hnil
  · refine .inr ⟨lsn.toNat, hanchor ?_, hle⟩
    rintro rfl
    simp at hle

theorem Sweeping.remove {w : Wal} {name segment : GoString} {stale left : List GoString}
    (hsweep : Sweeping w dropped closed active name stale (segment :: left))
    (hdisk : Disk w.dir log dropped closed active [])
    (hlive : Live w (dropped.length + 1) closed active) :
    ∃ dropped' closed', Disk (w.dir.erase segment) log dropped' closed' active [] ∧
      Live { w with dir := w.dir.erase segment } (dropped'.length + 1) closed' active ∧
      Sweeping { w with dir := w.dir.erase segment } dropped' closed' active name stale
        left ∧
      ∃ lsn, Anchor (w.dir.erase segment) (closed'.flatten ++ active) name lsn := by
  obtain ⟨gone, front, rest, hstale, hsegments, hgone, hclosed, hleft, hcovered⟩ := hsweep
  cases front with
  | nil => simp [closedFiles] at hleft
  | cons records front =>
      simp only [closedFiles, List.map_cons, List.cons.injEq] at hleft
      obtain ⟨rfl, rfl⟩ := hleft
      subst hclosed
      rcases hcovered with hnil | ⟨lsn, hanchor, hlsn⟩
      · contradiction
      · rw [List.flatten_cons, List.length_append] at hlsn
        obtain ⟨hdisk', hanchor'⟩ := hdisk.removeSegment hanchor (by omega)
        have hnext : (dropped ++ records).length + 1 =
            dropped.length + 1 + records.length := by
          rw [List.length_append]
          omega
        refine ⟨dropped ++ records, front ++ rest, hdisk',
          hlive.removeSegment hdisk'.layout,
          ⟨gone ++ [segName (dropped.length + 1)], front, rest, ?_, ?_, ?_, rfl, ?_, ?_⟩,
          lsn, hanchor'⟩
        · rw [hstale, List.append_assoc]
          rfl
        · show w.segments = _
          rw [hsegments, List.cons_append, segmentNames_cons, hnext, List.append_assoc]
          rfl
        · intro other hother
          rcases List.mem_append.mp hother with hold | hnew
          · obtain ⟨position, hposition, rfl⟩ := hgone other hold
            exact ⟨position, by omega, rfl⟩
          · refine ⟨dropped.length + 1, ?_, List.mem_singleton.mp hnew⟩
            have := List.length_pos_iff.mpr (hdisk.layout.nonempty records (by simp))
            omega
        · rw [hnext]
        · exact .inr ⟨lsn, hanchor', by omega⟩

theorem mem_segmentNames {base : Nat} {name : GoString}
    (hnonempty : ∀ records ∈ closed, records ≠ [])
    (hmem : name ∈ segmentNames base closed) :
    ∃ position, name = segName position ∧ base ≤ position ∧
      position ≤ base + closed.flatten.length := by
  rcases List.mem_append.mp hmem with hclosed | hactive
  · obtain ⟨position, hname, hlow, hhigh⟩ := mem_closedNames hnonempty hclosed
    exact ⟨position, hname, hlow, by omega⟩
  · exact ⟨_, List.mem_singleton.mp hactive, by omega, by omega⟩

theorem Sweeping.forget {w : Wal} {name : GoString} {stale : List GoString} {tail : Bytes}
    (hsweep : Sweeping w dropped closed active name stale [])
    (hdisk : Disk w.dir log dropped closed active tail) :
    (w.forgetSegments stale).segments = segmentNames (dropped.length + 1) closed := by
  obtain ⟨gone, front, rest, hstale, hsegments, hgone, -, -, -⟩ := hsweep
  rw [List.append_nil] at hstale
  have hnone : gone.filter (· ∉ stale) = [] := by
    rw [List.filter_eq_nil_iff, hstale]
    simp
  have hall : (segmentNames (dropped.length + 1) closed).filter (· ∉ stale) =
      segmentNames (dropped.length + 1) closed := by
    rw [List.filter_eq_self, hstale]
    intro segment hsegment
    rw [decide_eq_true_eq]
    intro hmem
    have hbound := hdisk.layout.active_lt
    obtain ⟨position, hearly, rfl⟩ := hgone segment hmem
    obtain ⟨other, hsame, hlow, hhigh⟩ :=
      mem_segmentNames hdisk.layout.nonempty hsegment
    have := segName_inj (by omega) (by omega) hsame
    omega
  rw [Wal.forgetSegments, hsegments, List.filter_append, hnone, hall, List.nil_append]

theorem staleCheckpoints_suffix {dir : Directory} {keepName name : GoString}
    (hmem : name ∈ Wal.staleCheckpoints dir keepName) :
    hasSuffix name ckptSuffix ∧ name ≠ keepName := by
  rw [Wal.staleCheckpoints, List.mem_filter, Directory.mem_namesWith,
    decide_eq_true_eq] at hmem
  exact ⟨hmem.1.1, hmem.2⟩

theorem Coordinator.Sane.choose {lsn : UInt64} {name : GoString}
    (hsane : c.Sane log dropped closed active) (hphase : c.checkpoint = .ended lsn name) :
    ∃ stale, segmentsBefore lsn c.log.segments = some stale ∧
      Coordinator.Sane { c with checkpoint := .deletingSegments name stale stale } log
        dropped closed active := by
  have hkeeps := hsane.keeps
  rw [hphase] at hkeeps
  obtain ⟨hplain, hanchor⟩ := hkeeps
  obtain ⟨stale, hstale, hsweep⟩ := hsane.disk.sweeping hplain fun _ => hanchor
  exact ⟨stale, hstale, hsane.disk, hsane.live, ⟨hsweep, _, hanchor⟩,
    fun _ => hsane.awake (by rw [hphase]; simp)⟩

theorem Coordinator.Sane.removeSegment {name segment : GoString}
    {stale left : List GoString} (hsane : c.Sane log dropped closed active)
    (hphase : c.checkpoint = .deletingSegments name stale (segment :: left)) :
    ∃ dropped' closed', Coordinator.Sane
      (c.moved (c.log.dir.erase segment) (.deletingSegments name stale left)) log dropped'
        closed' active := by
  have hkeeps := hsane.keeps
  rw [hphase] at hkeeps
  obtain ⟨dropped', closed', hdisk, hlive, hsweep, hanchor⟩ :=
    hkeeps.1.remove hsane.disk hsane.live
  exact ⟨dropped', closed', hdisk, hlive, ⟨hsweep, hanchor⟩,
    fun _ => hsane.awake (by rw [hphase]; simp)⟩

theorem Coordinator.Sane.forget {name : GoString} {stale : List GoString}
    (hsane : c.Sane log dropped closed active)
    (hphase : c.checkpoint = .deletingSegments name stale []) :
    Coordinator.Sane { c with
      log := c.log.forgetSegments stale
      checkpoint := .deletingCheckpoints (Wal.staleCheckpoints c.log.dir name) } log dropped
      closed active := by
  have hkeeps := hsane.keeps
  rw [hphase] at hkeeps
  obtain ⟨hsweep, lsn, hanchor⟩ := hkeeps
  refine ⟨hsane.disk, hsane.live.withSegments _,
    ⟨hsweep.forget hsane.disk, ?_, name, lsn, hanchor, ?_⟩,
    fun _ => hsane.awake (by rw [hphase]; simp)⟩
  · exact fun other hmem => (staleCheckpoints_suffix hmem).1
  · exact fun hmem => (staleCheckpoints_suffix hmem).2 rfl

theorem Coordinator.Sane.removeCheckpoint {name : GoString} {left : List GoString}
    (hsane : c.Sane log dropped closed active)
    (hphase : c.checkpoint = .deletingCheckpoints (name :: left)) :
    Coordinator.Sane (c.moved (c.log.dir.erase name) (.deletingCheckpoints left)) log
      dropped closed active := by
  have hkeeps := hsane.keeps
  rw [hphase] at hkeeps
  obtain ⟨hplain, hsuffix, kept, lsn, hanchor, hkept⟩ := hkeeps
  rw [List.mem_cons, not_or] at hkept
  have hdisk := hsane.disk.removeCheckpoint (hsuffix name List.mem_cons_self)
    (.inr ⟨kept, lsn, hkept.1, hanchor⟩)
  refine ⟨hdisk, hsane.live.withDir hdisk.layout,
    ⟨hplain, fun other hmem => hsuffix other (List.mem_cons_of_mem _ hmem), kept, lsn,
      hanchor.congr ?_, hkept.2⟩, fun _ => hsane.awake (by rw [hphase]; simp)⟩
  simp only [moved]
  rw [GoMap.lookup_erase_eq, if_neg hkept.1]

/-! Together. -/

theorem Coordinator.Sane.advance {choices : Choices} {c' : Coordinator}
    (hsane : c.Sane log dropped closed active) (hfresh : choices.Fresh log)
    (hadvance : c.advance choices = some c') :
    ∃ dropped' closed', c'.Sane log dropped' closed' active ∧ c'.cat = c.cat := by
  unfold Coordinator.advance at hadvance
  cases hphase : c.checkpoint with
  | idle => simp [hphase] at hadvance
  | spawned => simp [hphase] at hadvance
  | installed lsn name checksum => simp [hphase] at hadvance
  | begun lsn =>
      obtain ⟨reader, hreader, hnext⟩ := hsane.open hphase
      simp only [hphase, hreader, Option.some.injEq] at hadvance
      subst hadvance
      exact ⟨dropped, closed, hnext, rfl⟩
  | reading lsn reader scan =>
      rcases hsane.read hphase with ⟨next, scan', hstep, hnext⟩ | ⟨scan', hstep, hnext⟩
      · simp only [hphase, hstep, Option.some.injEq] at hadvance
        subst hadvance
        exact ⟨dropped, closed, hnext, rfl⟩
      · simp only [hphase, hstep, Option.some.injEq] at hadvance
        subst hadvance
        exact ⟨dropped, closed, hnext, rfl⟩
  | fetched lsn records =>
      simp only [hphase, Option.some.injEq] at hadvance
      subst hadvance
      exact ⟨dropped, closed, hsane.create hphase hfresh, rfl⟩
  | writing lsn name left =>
      cases left with
      | nil =>
          obtain ⟨content, hcontent, hnext⟩ := hsane.install hphase
          simp only [hphase, hcontent, Option.some.injEq] at hadvance
          subst hadvance
          exact ⟨dropped, closed, hnext, rfl⟩
      | cons byte left =>
          simp only [hphase, Option.some.injEq] at hadvance
          subst hadvance
          exact ⟨dropped, closed, hsane.write hphase choices.count, rfl⟩
  | ended lsn name =>
      obtain ⟨stale, hstale, hnext⟩ := hsane.choose hphase
      simp only [hphase, hstale, Option.some.injEq] at hadvance
      subst hadvance
      exact ⟨dropped, closed, hnext, rfl⟩
  | deletingSegments name stale left =>
      cases left with
      | nil =>
          simp only [hphase, Option.some.injEq] at hadvance
          subst hadvance
          exact ⟨dropped, closed, hsane.forget hphase, rfl⟩
      | cons segment left =>
          simp only [hphase, Option.some.injEq] at hadvance
          subst hadvance
          obtain ⟨dropped', closed', hnext⟩ := hsane.removeSegment hphase
          exact ⟨dropped', closed', hnext, rfl⟩
  | deletingCheckpoints left =>
      cases left with
      | nil =>
          simp only [hphase, Option.some.injEq] at hadvance
          subst hadvance
          have hkeeps := hsane.keeps
          rw [hphase] at hkeeps
          exact ⟨dropped, closed,
            ⟨hsane.disk, hsane.live, .plain hkeeps.1, fun hidle => absurd rfl hidle⟩, rfl⟩
      | cons name left =>
          simp only [hphase, Option.some.injEq] at hadvance
          subst hadvance
          exact ⟨dropped, closed, hsane.removeCheckpoint hphase, rfl⟩

theorem Looping.doubled {segments : List GoString} {base lsn : Nat} {reader : Reader}
    (hlooping : Looping segments base closed lsn reader) :
    ∃ stop, Doubled segments base closed stop := by
  obtain ⟨before, records, after, hclosed, hsegments, -, -⟩ := hlooping
  exact ⟨_, before, records, after, hclosed, hsegments, rfl⟩

theorem Coordinator.Sane.abandon {c' : Coordinator}
    (hsane : c.Sane log dropped closed active) (habandon : c.abandon = some c') :
    c'.Sane log dropped closed active ∧ c'.cat = c.cat := by
  have hkeeps := hsane.keeps
  have hawake := hsane.awake
  have hidle : Listing c.log (dropped.length + 1) closed active →
      Coordinator.Sane { c with checkpoint := .idle } log dropped closed active :=
    fun hlisting => ⟨hsane.disk, hsane.live, hlisting, fun hidle => absurd rfl hidle⟩
  unfold Coordinator.abandon at habandon
  cases hphase : c.checkpoint with
  | idle => simp [hphase] at habandon
  | ended lsn name => simp [hphase] at habandon
  | deletingSegments name stale left => simp [hphase] at habandon
  | deletingCheckpoints left => simp [hphase] at habandon
  | spawned =>
      simp only [hphase, Option.some.injEq] at habandon hkeeps
      subst habandon
      exact ⟨hidle hkeeps, rfl⟩
  | begun lsn =>
      simp only [hphase, Option.some.injEq] at habandon hkeeps hawake
      subst habandon
      refine ⟨hidle ?_, rfl⟩
      rcases hkeeps.2.2 with hplain | ⟨stop, -, hdoubled⟩
      · exact .plain hplain
      · exact .doubled stop (hawake (by simp)) hdoubled
  | reading lsn reader scan =>
      simp only [hphase, Option.some.injEq] at habandon hkeeps hawake
      subst habandon
      refine ⟨hidle ?_, rfl⟩
      rcases hkeeps.2.2 with ⟨hplain, -⟩ | hlooping
      · exact .plain hplain
      · obtain ⟨stop, hdoubled⟩ := hlooping.doubled
        exact .doubled stop (hawake (by simp)) hdoubled
  | fetched lsn records =>
      simp only [hphase, Option.some.injEq] at habandon hkeeps
      subst habandon
      exact ⟨hidle (.plain hkeeps.2.1), rfl⟩
  | writing lsn name left =>
      simp only [hphase, Option.some.injEq] at habandon hkeeps
      subst habandon
      exact ⟨hidle (.plain hkeeps.2.1), rfl⟩
  | installed lsn name checksum =>
      simp only [hphase, Option.some.injEq] at habandon hkeeps
      subst habandon
      exact ⟨hidle (.plain hkeeps.2.1), rfl⟩

end Advance

end SimonMQ.Durable
