import SimonMQ.Durable.Limit
import SimonMQ.Durable.Listing

namespace SimonMQ.Durable

open SimonMQ.Go SimonMQ.Transition

/-! The segment list as a partition of the log, over runs of `Open`, `Append` and
`DeleteSegmentsBefore`. -/

/-- `DeleteSegmentsBefore`; no value where it panics on a name. -/
def Wal.deleteSegmentsBefore (w : Wal) (lsn : UInt64) : Option Wal :=
  (segmentsBefore lsn w.segments).map fun stale =>
    { w with dir := Wal.removeAll w.dir stale }.forgetSegments stale

/-- The directory, with its process if one has it open. -/
inductive Volume
  | down (dir : Directory)
  | up (w : Wal)

inductive VolumeEvent
  | start (maxSegSize : Int) (mode : Mode)
  | append (rec : Record)
  | deleteBefore (lsn : UInt64)
  | crash
  /-- a crash inside an append, after any roll, with `cut` bytes of the frame on
  disk -/
  | crashIn (rec : Record) (cut : Nat)

namespace Volume

def dir : Volume → Directory
  | .down dir => dir
  | .up w => w.dir

def step : Volume → VolumeEvent → Option Volume
  | .down dir, .start maxSegSize mode =>
      match Wal.openDir dir maxSegSize mode with
      | .ok w => some (.up w)
      | .error _ => none
  | .up w, .append rec => some (.up (w.append rec).1)
  | .up w, .deleteBefore lsn => (w.deleteSegmentsBefore lsn).map .up
  | volume, .crash => some (.down volume.dir)
  | .up w, .crashIn rec cut =>
      match w.prepare rec {} with
      | .ok ready => some (.down (ready.write ((w.stamp rec).encode.take cut)).dir)
      | .error _ => none
  | _, _ => none

def wal : Volume → Option Wal
  | .down _ => none
  | .up w => some w

/-- The frame's length field can hold the record's length, LSNs have not run out, and
an empty current segment has room for the frame. -/
def Roomy : Volume → VolumeEvent → Prop
  | .up w, .append rec => rec.lengthField < 2 ^ 32 ∧ w.nextLSN.toNat + 1 < 2 ^ 64 ∧
      (w.currentSize = 0 → ¬ w.mustRoll rec)
  | .up w, .crashIn rec _ => rec.lengthField < 2 ^ 32 ∧ w.nextLSN.toNat + 1 < 2 ^ 64 ∧
      (w.currentSize = 0 → ¬ w.mustRoll rec)
  | _, _ => True

instance (volume : Volume) (event : VolumeEvent) : Decidable (volume.Roomy event) :=
  match volume, event with
  | .up _, .append _ => inferInstanceAs (Decidable (_ ∧ _ ∧ (_ → ¬ _)))
  | .up _, .crashIn _ _ => inferInstanceAs (Decidable (_ ∧ _ ∧ (_ → ¬ _)))
  | .up _, .start _ _ => isTrue trivial
  | .up _, .deleteBefore _ => isTrue trivial
  | .up _, .crash => isTrue trivial
  | .down _, _ => isTrue trivial

end Volume

/-- The list names the segments on disk in strictly increasing order, and each record
lies in the segment whose range its LSN is in. -/
structure Wal.Partitioned (w : Wal) : Prop where
  increasing : ∃ firsts : List UInt64,
    w.segments.map firstLSNFromSegmentName = firsts.map some ∧ firsts.Pairwise (· < ·)
  onDisk : ∀ name, name ∈ w.segments ↔
    hasSuffix name walSuffix = true ∧ ∃ content, w.dir.lookup name = some content
  placed : ∀ before name after, w.segments = before ++ name :: after →
    ∃ first records, firstLSNFromSegmentName name = some first ∧
      w.dir.lookup name = some (frames records) ∧
      ∀ rec ∈ records, first ≤ rec.lsn ∧
        ∀ next ∈ after.head?, ∀ bound ∈ firstLSNFromSegmentName next, rec.lsn < bound

/-! What `Open` makes of records over the limit. -/

theorem scanSegment_of_readFrame {bytes : Bytes}
    (hread : readFrame bytes = .eof ∨ readFrame bytes = .torn ∨
      ∃ length, readFrame bytes = .tooLong length) : scanSegment bytes = some ([], 0) := by
  rw [scanSegment]
  rcases hread with hread | hread | ⟨length, hread⟩ <;> split <;> simp_all

theorem scanSegment_takeWhile {records : List Record}
    (hlength : ∀ rec ∈ records, rec.lengthField < 2 ^ 32) {tail : Bytes}
    (htail : scanSegment tail = some ([], 0)) :
    scanSegment (frames records ++ tail) =
      some (records.takeWhile (fun rec => rec.Fits),
        (frames (records.takeWhile fun rec => rec.Fits)).length) := by
  induction records with
  | nil => simpa using htail
  | cons rec records ih =>
      have hrest := ih fun other hmem => hlength other (List.mem_cons_of_mem _ hmem)
      rw [frames_cons, List.append_assoc]
      by_cases hfits : rec.Fits
      · rw [scanSegment_cons hfits, hrest]
        simp [hfits]
      · have hread := readFrame_tooLong (Nat.not_le.mp hfits)
          (hlength rec List.mem_cons_self) (frames records ++ tail)
        rw [scanSegment_of_readFrame (.inr (.inr ⟨_, hread⟩))]
        simp [hfits]

theorem scanSegment_cut {rec : Record} (hlength : rec.lengthField < 2 ^ 32) {cut : Nat}
    (hcut : cut < rec.encode.length) : scanSegment (rec.encode.take cut) = some ([], 0) := by
  by_cases hfits : rec.Fits
  · exact scanSegment_torn ⟨rec, hfits, cut, hcut, rfl⟩
  · have htotal : (rec.encode.take cut).length = cut := by
      rw [List.length_take]
      omega
    apply scanSegment_of_readFrame
    rcases Nat.eq_zero_or_pos cut with rfl | hpos
    · exact .inl rfl
    · right
      have hnonempty : (rec.encode.take cut).isEmpty = false := by
        rw [List.isEmpty_eq_false_iff_exists_mem]
        exact List.exists_mem_of_length_pos (by omega)
      rw [readFrame, if_neg (by simp [hnonempty])]
      split_ifs with hheader
      · exact .inl rfl
      · simp only [toNat_lengthField_take hlength (show 12 ≤ cut by omega)]
        rw [if_pos (Nat.not_le.mp hfits)]
        exact .inr ⟨_, rfl⟩

/-! Runs. -/

def Volume.Sane : Volume → Prop
  | .down dir => dir = ∅ ∨ ∃ base closed active tail, Layout dir base closed active tail ∧
      scanSegment tail = some ([], 0) ∧
      ∀ rec ∈ closed.flatten ++ active, rec.lengthField < 2 ^ 32
  | .up w => ∃ base closed active, Live w base closed active ∧
      w.segments = segmentNames base closed ∧
      ∀ rec ∈ closed.flatten ++ active, rec.lengthField < 2 ^ 32

section Steps

variable {dir : Directory} {base : Nat} {closed : List (List Record)}
  {active kept : List Record} {tail : Bytes}

theorem Layout.keep (hlayout : Layout dir base closed active tail) (hkept : kept <+: active) :
    Layout (dir.truncate (segName (base + closed.flatten.length)) (frames kept).length)
      base closed kept [] := by
  obtain ⟨rest, rfl⟩ := hkept
  have hbound := hlayout.bound
  have hnumbered := hlayout.numbered
  rw [← List.append_assoc, List.length_append] at hbound
  rw [← List.append_assoc, numbered_append] at hnumbered
  apply hlayout.setActive (by omega) hnumbered.1
  intro name
  rw [Directory.lookup_truncate, hlayout.lookup_active, Option.map_some, frames_append,
    List.append_assoc, List.take_left' rfl, List.append_nil]

theorem Layout.opened (hlayout : Layout dir base closed active tail)
    (htail : scanSegment tail = some ([], 0))
    (hlength : ∀ rec ∈ closed.flatten ++ active, rec.lengthField < 2 ^ 32)
    (maxSegSize : Int) (mode : Mode) :
    ∃ w kept, Wal.openDir dir maxSegSize mode = .ok w ∧ Live w base closed kept ∧
      w.segments = segmentNames base closed ∧ kept <+: active := by
  have hscan := scanSegment_takeWhile
    (fun rec hmem => hlength rec (List.mem_append_right _ hmem)) htail
  have hkept : active.takeWhile (fun rec => rec.Fits) <+: active :=
    List.takeWhile_prefix _
  exact ⟨_, _, hlayout.openDir_scanned hscan hkept maxSegSize mode,
    ⟨⟨hlayout.keep hkept, rfl, rfl⟩, rfl, rfl⟩, rfl, hkept⟩

theorem Volume.Sane.opens (hsane : (Volume.down dir).Sane) (maxSegSize : Int)
    (mode : Mode) :
    ∃ w, Wal.openDir dir maxSegSize mode = .ok w ∧ (Volume.up w).Sane := by
  rcases hsane with rfl | ⟨base, closed, active, tail, hlayout, htail, hlength⟩
  · obtain ⟨w, hopen, hlive, hsegments⟩ := live_of_empty maxSegSize mode
    exact ⟨w, hopen, 1, [], [], hlive, hsegments, by simp⟩
  · obtain ⟨w, kept, hopen, hlive, hsegments, hkept⟩ :=
      hlayout.opened htail hlength maxSegSize mode
    refine ⟨w, hopen, base, closed, kept, hlive, hsegments, fun rec hmem => hlength rec ?_⟩
    rcases List.mem_append.mp hmem with hclosed | hactive
    · exact List.mem_append_left _ hclosed
    · exact List.mem_append_right _ (hkept.subset hactive)

theorem Volume.Sane.append {w : Wal} {rec : Record} (hsane : (Volume.up w).Sane)
    (hroomy : (Volume.up w).Roomy (.append rec)) : (Volume.up (w.append rec).1).Sane := by
  obtain ⟨base, closed, active, hlive, hsegments, hlength⟩ := hsane
  obtain ⟨hrec, hlsn, hroom⟩ := hroomy
  rw [hlive.ready.toNat_nextLSN] at hlsn
  obtain ⟨after, closed', active', happend, hgrows, hafter, -⟩ := hlive.append rec hlsn
  rw [happend]
  refine ⟨base, closed', active', hafter, ?_, ?_⟩
  · cases hgrows with
    | stays hstays hsame => exact hsame.trans hsegments
    | rolls hmust hnonempty hadded => rw [hadded, hsegments, segmentNames_concat]
    | doubles hmust hempty hadded =>
        have hzero : w.currentSize = 0 := by
          rw [hlive.size, hempty]
          rfl
        exact absurd hmust (hroom hzero)
  · rw [hgrows.records]
    intro other hmem
    rcases List.mem_append.mp hmem with hold | hnew
    · exact hlength other hold
    · rw [List.mem_singleton.mp hnew]
      exact hrec

theorem Volume.Sane.crashIn {w ready : Wal} {rec : Record} {cut : Nat}
    (hsane : (Volume.up w).Sane) (hroomy : (Volume.up w).Roomy (.crashIn rec cut))
    (hprepare : w.prepare rec {} = .ok ready) :
    (Volume.down (ready.write ((w.stamp rec).encode.take cut)).dir).Sane := by
  obtain ⟨base, closed, active, hlive, hsegments, hlength⟩ := hsane
  obtain ⟨hrec, hlsn, -⟩ := hroomy
  rw [hlive.ready.toNat_nextLSN] at hlsn
  obtain ⟨closed', active', hready, hrecords⟩ := hlive.ready.prepare hprepare
  have hstamp := Wal.prepare_stamp hprepare
  by_cases hwhole : (w.stamp rec).encode.length ≤ cut
  · have hlayout := hready.write_frame rec (by rw [hrecords]; exact hlsn)
    rw [hstamp] at hlayout
    rw [List.take_of_length_le hwhole]
    refine .inr ⟨base, closed', _, [], hlayout, scanSegment_torn torn_nil, ?_⟩
    rw [← List.append_assoc, hrecords]
    intro other hmem
    rcases List.mem_append.mp hmem with hold | hnew
    · exact hlength other hold
    · rw [List.mem_singleton.mp hnew]
      exact hrec
  · refine .inr ⟨base, closed', active', _, hready.write_part _, ?_, ?_⟩
    · have hstampLength : (w.stamp rec).lengthField < 2 ^ 32 := hrec
      exact scanSegment_cut hstampLength (Nat.not_le.mp hwhole)
    · rw [hrecords]
      exact hlength

/-! `DeleteSegmentsBefore`. -/

theorem Layout.dropFront {front rest : List (List Record)}
    (hlayout : Layout dir base (front ++ rest) active tail) :
    Layout (Wal.removeAll dir ((closedFiles base front).map Prod.fst))
      (base + front.flatten.length) rest active tail := by
  induction front generalizing dir base with
  | nil => exact hlayout
  | cons records front ih =>
      have hnext := ih hlayout.dropOldest
      rw [List.flatten_cons, List.length_append, ← Nat.add_assoc]
      exact hnext

theorem filter_segmentNames {front rest : List (List Record)}
    (hlayout : Layout dir base (front ++ rest) active tail) :
    (segmentNames base (front ++ rest)).filter
        (· ∉ (closedFiles base front).map Prod.fst) =
      segmentNames (base + front.flatten.length) rest := by
  have hsplit : segmentNames base (front ++ rest) =
      (closedFiles base front).map Prod.fst ++
        segmentNames (base + front.flatten.length) rest := by
    simp only [segmentNames, closedFiles_append, List.map_append, List.flatten_append,
      List.length_append, List.append_assoc, Nat.add_assoc]
  have hnodup : (segmentNames base (front ++ rest)).Nodup :=
    hlayout.names_pairwise.imp fun hlt => by
      rintro rfl
      exact List.lt_irrefl _ hlt
  rw [hsplit] at hnodup ⊢
  have hdisjoint := (List.nodup_append.mp hnodup).2.2
  rw [List.filter_append, List.filter_eq_nil_iff.mpr, List.filter_eq_self.mpr,
    List.nil_append]
  · intro name hname
    rw [decide_eq_true_eq]
    exact fun hmem => hdisjoint name hmem name hname rfl
  · intro name hname
    simp [hname]

theorem Volume.Sane.deleteBefore {w after : Wal} {lsn : UInt64}
    (hsane : (Volume.up w).Sane) (hdelete : w.deleteSegmentsBefore lsn = some after) :
    (Volume.up after).Sane := by
  obtain ⟨base, closed, active, hlive, hsegments, hlength⟩ := hsane
  have hlayout := hlive.ready.layout
  rw [Wal.deleteSegmentsBefore, hsegments,
    segmentsBefore_segmentNames lsn hlayout.active_lt, Option.map_some,
    Option.some.injEq] at hdelete
  obtain ⟨front, hfront⟩ : ∃ front, front = closed.take (staleCount lsn base closed) :=
    ⟨_, rfl⟩
  obtain ⟨rest, rfl⟩ : ∃ rest, closed = front ++ rest :=
    ⟨_, by rw [hfront, List.take_append_drop]⟩
  rw [← hfront] at hdelete
  subst hdelete
  refine ⟨base + front.flatten.length, rest, active,
    ⟨⟨hlayout.dropFront, ?_, ?_⟩, hlive.usable, hlive.size⟩, ?_, ?_⟩
  · have hfile := hlive.ready.file
    rw [List.flatten_append, List.length_append, ← Nat.add_assoc] at hfile
    exact hfile
  · have hnext := hlive.ready.nextLSN
    rw [List.flatten_append, List.append_assoc, List.length_append, ← Nat.add_assoc] at hnext
    exact hnext
  · simp only [Wal.forgetSegments]
    exact filter_segmentNames hlayout
  · intro rec hmem
    apply hlength rec
    rw [List.flatten_append, List.append_assoc]
    exact List.mem_append_right _ hmem

end Steps

namespace Volume

theorem Sane.step {volume next : Volume} {event : VolumeEvent} (hsane : volume.Sane)
    (hroomy : volume.Roomy event) (hstep : volume.step event = some next) : next.Sane := by
  cases volume with
  | down dir =>
      cases event with
      | start maxSegSize mode =>
          obtain ⟨w, hopen, hup⟩ := hsane.opens maxSegSize mode
          simp only [Volume.step, hopen, Option.some.injEq] at hstep
          rw [← hstep]
          exact hup
      | crash =>
          cases hstep
          exact hsane
      | append rec => contradiction
      | deleteBefore lsn => contradiction
      | crashIn rec cut => contradiction
  | up w =>
      cases event with
      | start maxSegSize mode => contradiction
      | append rec =>
          cases hstep
          exact hsane.append hroomy
      | deleteBefore lsn =>
          obtain ⟨after, hdelete, rfl⟩ := Option.map_eq_some_iff.mp hstep
          exact hsane.deleteBefore hdelete
      | crash =>
          cases hstep
          obtain ⟨base, closed, active, hlive, -, hlength⟩ := hsane
          exact .inr ⟨base, closed, active, [], hlive.ready.layout,
            scanSegment_torn torn_nil, hlength⟩
      | crashIn rec cut =>
          simp only [Volume.step] at hstep
          split at hstep
          · rename_i ready hprepare
            cases hstep
            exact hsane.crashIn hroomy hprepare
          · contradiction

end Volume

/-! The partition. -/

theorem segmentNames_at {base : Nat} {closed : List (List Record)}
    {before after : List GoString} {name : GoString}
    (hnames : segmentNames base closed = before ++ name :: after) :
    (∃ front records rest, closed = front ++ records :: rest ∧
      name = segName (base + front.flatten.length) ∧
      after = segmentNames (base + front.flatten.length + records.length) rest) ∨
    name = segName (base + closed.flatten.length) ∧ after = [] := by
  induction closed generalizing base before with
  | nil =>
      right
      have hone : [segName (base + 0)] = before ++ name :: after := hnames
      cases before with
      | nil =>
          cases hone
          exact ⟨rfl, rfl⟩
      | cons other before => simp at hone
  | cons records closed ih =>
      rw [segmentNames_cons] at hnames
      cases before with
      | nil =>
          obtain ⟨rfl, rfl⟩ := List.cons.inj hnames
          exact .inl ⟨[], records, closed, rfl, rfl, rfl⟩
      | cons other before =>
          rcases ih (List.cons.inj hnames).2 with
            ⟨front, found, rest, rfl, rfl, rfl⟩ | ⟨rfl, rfl⟩
          · refine .inl ⟨records :: front, found, rest, rfl, ?_, ?_⟩
            · rw [List.flatten_cons, List.length_append, Nat.add_assoc]
            · rw [List.flatten_cons, List.length_append, Nat.add_assoc base]
          · refine .inr ⟨?_, rfl⟩
            rw [List.flatten_cons, List.length_append, Nat.add_assoc]

theorem Live.partitioned {w : Wal} {base : Nat} {closed : List (List Record)}
    {active : List Record} (hlive : Live w base closed active)
    (hsegments : w.segments = segmentNames base closed) : w.Partitioned := by
  have hlayout := hlive.ready.layout
  have hbound := hlayout.bound
  have hnumbered := hlayout.numbered
  have hnamed : ∀ name ∈ w.segments, ∃ position, name = segName position := by
    intro name hmem
    rw [hsegments, segmentNames, List.mem_append] at hmem
    rcases hmem with hclosed | hactive
    · obtain ⟨position, hname, -⟩ := mem_closedNames hlayout.nonempty hclosed
      exact ⟨position, hname⟩
    · exact ⟨_, List.mem_singleton.mp hactive⟩
  refine ⟨⟨w.segments.map fun name => (firstLSNFromSegmentName name).getD 0, ?_, ?_⟩,
    ?_, ?_⟩
  · rw [List.map_map]
    apply List.map_congr_left
    intro name hmem
    obtain ⟨position, rfl⟩ := hnamed name hmem
    simp only [Function.comp_apply, firstLSN_segName, Option.getD_some]
  · rw [List.pairwise_map]
    have hsorted := hlayout.names_pairwise
    rw [← hsegments] at hsorted
    refine hsorted.imp_of_mem ?_
    intro left right hleft hright hlt
    obtain ⟨first, rfl⟩ := hnamed left hleft
    obtain ⟨second, rfl⟩ := hnamed right hright
    rw [firstLSN_segName, firstLSN_segName, Option.getD_some, Option.getD_some]
    rwa [segName_lt_iff_ofNat] at hlt
  · intro name
    rw [hsegments, ← hlayout.namesWith_walSuffix, Directory.mem_namesWith]
  · intro before name after hsplit
    rw [hsegments] at hsplit
    rcases segmentNames_at hsplit with
      ⟨front, records, rest, rfl, rfl, rfl⟩ | ⟨rfl, rfl⟩
    · rw [List.flatten_append, List.flatten_cons, List.append_assoc, List.append_assoc,
        numbered_append, numbered_append] at hnumbered
      rw [List.flatten_append, List.flatten_cons, List.append_assoc, List.append_assoc,
        List.length_append, List.length_append] at hbound
      refine ⟨_, records, firstLSN_segName _, hlayout.lookup_closed, fun rec hmem => ?_⟩
      have hrange := hnumbered.2.1.bounds hmem
      refine ⟨?_, ?_⟩
      · rw [UInt64.le_iff_toNat_le, toNat_ofNat_lsn (by omega)]
        exact hrange.1
      · intro next hnext bound hlsn
        obtain ⟨others, hcons⟩ := segmentNames_eq_cons
          (base + front.flatten.length + records.length) rest
        rw [hcons, List.head?_cons, Option.mem_some_iff] at hnext
        rw [← hnext, firstLSN_segName, Option.mem_some_iff] at hlsn
        rw [← hlsn, UInt64.lt_iff_toNat_lt, toNat_ofNat_lsn (by omega)]
        exact hrange.2
    · rw [numbered_append] at hnumbered
      rw [List.length_append] at hbound
      have hlookup := hlayout.lookup_active
      rw [List.append_nil] at hlookup
      refine ⟨_, active, firstLSN_segName _, hlookup, fun rec hmem => ⟨?_, by simp⟩⟩
      rw [UInt64.le_iff_toNat_le, toNat_ofNat_lsn (by omega)]
      exact (hnumbered.2.bounds hmem).1

/-! What follows from it. -/

theorem Wal.Partitioned.nodup {w : Wal} (hpartitioned : w.Partitioned) :
    w.segments.Nodup := by
  obtain ⟨firsts, hfirsts, hsorted⟩ := hpartitioned.increasing
  have hnodup : (firsts.map some).Nodup := by
    apply List.Nodup.map (Option.some_injective _)
    exact hsorted.imp fun hlt => by
      rintro rfl
      exact absurd hlt (UInt64.lt_irrefl _)
  rw [← hfirsts] at hnodup
  exact hnodup.of_map

def Reader.Ends (dir : Directory) (segments : List GoString) (reader : Reader) : Prop :=
  ∃ enough, ∀ fuel, enough ≤ fuel →
    ∃ drained, reader.drain dir segments fuel = some drained

theorem Reader.ends_of_fetch {dir : Directory} {segments : List GoString}
    {reader : Reader}
    (hrecord : ∀ rec next, reader.fetch dir segments = .record rec next →
      next.Ends dir segments)
    (hopened : ∀ next, reader.fetch dir segments = .opened next → next.Ends dir segments) :
    reader.Ends dir segments := by
  have hone : ∀ enough, (∀ fuel, enough ≤ fuel →
      ∃ drained, reader.drain dir segments (fuel + 1) = some drained) →
      reader.Ends dir segments := by
    intro enough henough
    refine ⟨enough + 1, fun fuel hfuel => ?_⟩
    obtain ⟨fuel, rfl⟩ : ∃ rest, fuel = rest + 1 := ⟨fuel - 1, by omega⟩
    exact henough fuel (by omega)
  cases hfetch : reader.fetch dir segments with
  | record rec next =>
      obtain ⟨enough, henough⟩ := hrecord rec next hfetch
      refine hone enough fun fuel hfuel => ?_
      obtain ⟨drained, hdrained⟩ := henough fuel hfuel
      exact ⟨(rec :: drained.1, drained.2), by
        simp only [Reader.drain, hfetch, hdrained, Option.map_some]⟩
  | opened next =>
      obtain ⟨enough, henough⟩ := hopened next hfetch
      refine hone enough fun fuel hfuel => ?_
      obtain ⟨drained, hdrained⟩ := henough fuel hfuel
      exact ⟨drained, by simp only [Reader.drain, hfetch, hdrained]⟩
  | finished => exact hone 0 fun fuel _ => ⟨([], .finished), by simp only [drain, hfetch]⟩
  | failed err =>
      exact hone 0 fun fuel _ => ⟨([], .failed err), by simp only [drain, hfetch]⟩
  | panicked => exact hone 0 fun fuel _ => ⟨([], .panicked), by simp only [drain, hfetch]⟩

theorem Reader.fetch_eq_record {dir : Directory} {segments : List GoString}
    {reader next : Reader} {rec : Record}
    (hfetch : reader.fetch dir segments = .record rec next) :
    ∃ content size, dir.lookup reader.current = some content ∧
      readFrame (content.drop reader.offset) = .frame rec size ∧
      next = ⟨reader.current, reader.offset + size⟩ := by
  unfold Reader.fetch at hfetch
  split at hfetch
  · contradiction
  · rename_i content hcontent
    split at hfetch
    · split at hfetch
      · contradiction
      · split at hfetch <;> contradiction
    · split at hfetch <;> contradiction
    · contradiction
    · contradiction
    · contradiction
    · rename_i found size hread
      cases hfetch
      exact ⟨content, size, hcontent, hread, rfl⟩

theorem Reader.fetch_eq_opened {dir : Directory} {segments : List GoString}
    {reader next : Reader} (hfetch : reader.fetch dir segments = .opened next) :
    segmentAfter reader.current segments = some next.current ∧ next.offset = 0 := by
  unfold Reader.fetch at hfetch
  split at hfetch
  · contradiction
  · split at hfetch
    · split at hfetch
      · contradiction
      · rename_i found hafter
        split at hfetch
        · contradiction
        · cases hfetch
          exact ⟨hafter, rfl⟩
    · split at hfetch <;> contradiction
    · contradiction
    · contradiction
    · contradiction
    · contradiction

theorem Reader.ends_of_next {dir : Directory} {segments : List GoString} {name : GoString}
    (hnext : ∀ next, segmentAfter name segments = some next →
      Reader.Ends dir segments ⟨next, 0⟩) (offset : Nat) :
    Reader.Ends dir segments ⟨name, offset⟩ := by
  -- Every record takes the reader at least a header further into the file.
  induction hleft : ((dir.lookup name).getD []).length - offset
    using Nat.strong_induction_on generalizing offset with
  | h left ih =>
      apply Reader.ends_of_fetch
      · intro rec next hfetch
        obtain ⟨content, size, hcontent, hread, rfl⟩ := Reader.fetch_eq_record hfetch
        have hsize := readFrame_size hread
        rw [List.length_drop] at hsize
        refine ih _ ?_ _ rfl
        dsimp only at hcontent hsize ⊢
        rw [hcontent, Option.getD_some] at hleft ⊢
        omega
      · intro next hfetch
        obtain ⟨hafter, hzero⟩ := Reader.fetch_eq_opened hfetch
        have hends := hnext next.current hafter
        rwa [← hzero] at hends

theorem segmentAfter_of_not_mem {name : GoString} {segments : List GoString}
    (habsent : name ∉ segments) : segmentAfter name segments = none := by
  induction segments with
  | nil => rfl
  | cons head segments ih =>
      rw [List.mem_cons, not_or] at habsent
      cases segments with
      | nil => rfl
      | cons next segments =>
          rw [segmentAfter, if_neg (Ne.symm habsent.1)]
          exact ih habsent.2

theorem Reader.ends {segments : List GoString} (hnodup : segments.Nodup) (dir : Directory)
    (reader : Reader) : reader.Ends dir segments := by
  have habsent : ∀ {before after : List GoString} {name : GoString},
      segments = before ++ name :: after → name ∉ before := by
    intro before after name hsplit hmem
    rw [hsplit] at hnodup
    exact (List.nodup_append.mp hnodup).2.2 name hmem name (by simp) rfl
  have hlisted : ∀ after before name, segments = before ++ name :: after → ∀ offset,
      Reader.Ends dir segments ⟨name, offset⟩ := by
    intro after
    induction after with
    | nil =>
        intro before name hsplit offset
        apply Reader.ends_of_next
        intro next hnext
        rw [hsplit, segmentAfter_last (habsent hsplit)] at hnext
        contradiction
    | cons following after ih =>
        intro before name hsplit offset
        apply Reader.ends_of_next
        intro next hnext
        rw [hsplit, segmentAfter_mid (habsent hsplit), Option.some.injEq] at hnext
        rw [← hnext]
        exact ih (before ++ [name]) following (by rw [hsplit, List.append_assoc]; rfl) 0
  by_cases hmem : reader.current ∈ segments
  · obtain ⟨before, after, hsplit⟩ := List.append_of_mem hmem
    exact hlisted after before reader.current hsplit reader.offset
  · apply Reader.ends_of_next
    intro next hnext
    rw [segmentAfter_of_not_mem hmem] at hnext
    contradiction

theorem segmentsBefore_spec {lsn : UInt64} {segments : List GoString}
    {firsts : List UInt64}
    (hfirsts : segments.map firstLSNFromSegmentName = firsts.map some) :
    ∃ stale, segmentsBefore lsn segments = some stale ∧ ∀ name ∈ stale,
      ∃ before next after bound, segments = before ++ name :: next :: after ∧
        firstLSNFromSegmentName next = some bound ∧ bound ≤ lsn := by
  induction segments generalizing firsts with
  | nil => exact ⟨[], rfl, by simp⟩
  | cons name segments ih =>
      cases segments with
      | nil => exact ⟨[], rfl, by simp⟩
      | cons next segments =>
          obtain ⟨first, rest, rfl⟩ : ∃ first rest, firsts = first :: rest := by
            cases firsts with
            | nil => simp at hfirsts
            | cons first rest => exact ⟨first, rest, rfl⟩
          obtain ⟨bound, rest, rfl⟩ : ∃ bound rest', rest = bound :: rest' := by
            cases rest with
            | nil => simp at hfirsts
            | cons bound rest => exact ⟨bound, rest, rfl⟩
          simp only [List.map_cons, List.cons.injEq] at hfirsts
          obtain ⟨-, hnext, hrest⟩ := hfirsts
          by_cases hlater : lsn < bound
          · exact ⟨[], by simp [segmentsBefore, hnext, hlater], by simp⟩
          · obtain ⟨stale, hstale, hspec⟩ := @ih (bound :: rest) (by simp [hnext, hrest])
            refine ⟨name :: stale, by simp [segmentsBefore, hnext, hlater, hstale], ?_⟩
            intro found hmem
            rcases List.mem_cons.mp hmem with rfl | hlast
            · exact ⟨[], next, segments, bound, rfl, hnext, UInt64.not_lt.mp hlater⟩
            · obtain ⟨before, later, after, limit, hsplit, hlimit, hle⟩ := hspec found hlast
              exact ⟨name :: before, later, after, limit, by rw [hsplit]; rfl, hlimit, hle⟩

theorem Wal.Partitioned.deletes_only_before {w : Wal} (hpartitioned : w.Partitioned)
    (lsn : UInt64) :
    ∃ stale, segmentsBefore lsn w.segments = some stale ∧ ∀ name ∈ stale,
      ∃ records, w.dir.lookup name = some (frames records) ∧
        ∀ rec ∈ records, rec.lsn < lsn := by
  obtain ⟨firsts, hfirsts, -⟩ := hpartitioned.increasing
  obtain ⟨stale, hstale, hspec⟩ := segmentsBefore_spec hfirsts
  refine ⟨stale, hstale, fun name hmem => ?_⟩
  obtain ⟨before, next, after, bound, hsplit, hbound, hle⟩ := hspec name hmem
  obtain ⟨_, records, _, hlookup, hplaced⟩ := hpartitioned.placed before name _ hsplit
  refine ⟨records, hlookup, fun rec hrec => ?_⟩
  exact UInt64.lt_of_lt_of_le ((hplaced rec hrec).2 next rfl bound hbound) hle

namespace Volume

/-- As long as no append finds an empty segment that its frame does not fit into: the
list is a strictly increasing partition of the log, every reader comes to an end, and
deleting up to an LSN keeps all records from there on. -/
theorem segments_partition_log {events : List VolumeEvent} {w : Wal}
    (hmeets : Meets step Roomy (.down ∅) events)
    (hexec : exec step (.down ∅) events = some (.up w)) :
    w.Partitioned ∧ (∀ reader, Reader.Ends w.dir w.segments reader) ∧
      ∀ lsn, ∃ stale, segmentsBefore lsn w.segments = some stale ∧ ∀ name ∈ stale,
        ∃ records, w.dir.lookup name = some (frames records) ∧
          ∀ rec ∈ records, rec.lsn < lsn := by
  have hfresh : (Volume.down ∅).Sane := .inl rfl
  have hsane : (Volume.up w).Sane :=
    exec_invariant (fun hstate hroomy hstep => hstate.step hroomy hstep) hfresh hmeets hexec
  obtain ⟨base, closed, active, hlive, hsegments, -⟩ := hsane
  have hpartitioned := hlive.partitioned hsegments
  exact ⟨hpartitioned, Reader.ends hpartitioned.nodup w.dir,
    hpartitioned.deletes_only_before⟩

/-- One record that is larger than a segment may be, in a fresh directory. -/
def doubledTrace : List VolumeEvent :=
  [.start 10 .sync, .append ⟨0, .createQueue, lit "q", []⟩]

/-- The roll away from the empty first segment lists it twice: a reader goes round in it
forever, and deleting up to LSN 1 removes the segment that holds LSN 1. -/
theorem oversize_first_append_doubles_segment :
    ∃ w after, exec step (.down ∅) doubledTrace = some (.up w) ∧
      w.segments = [segmentFileName 1, segmentFileName 1] ∧
      (∀ fuel, Reader.drain w.dir w.segments fuel ⟨segmentFileName 1, 0⟩ = none) ∧
      w.dir.lookup (segmentFileName 1) =
        some (frames [⟨1, .createQueue, lit "q", []⟩]) ∧
      w.deleteSegmentsBefore 1 = some after ∧ after.segments = [] ∧
      after.dir.lookup (segmentFileName 1) = none := by
  have hrun : ((exec step (.down ∅) doubledTrace).bind Volume.wal).map (fun w =>
      (w.segments, w.dir.lookup (segmentFileName 1),
        (w.deleteSegmentsBefore 1).map fun after =>
          (after.segments, (after.dir.lookup (segmentFileName 1)).isNone))) =
      some ([segmentFileName 1, segmentFileName 1],
        some (frames [⟨1, .createQueue, lit "q", []⟩]), some ([], true)) := by
    decide +kernel
  have hreads : ((exec step (.down ∅) doubledTrace).bind Volume.wal).map (fun w =>
      (Reader.fetch w.dir w.segments ⟨segmentFileName 1, 0⟩,
        Reader.fetch w.dir w.segments ⟨segmentFileName 1, 22⟩)) =
      some (.record ⟨1, .createQueue, lit "q", []⟩ ⟨segmentFileName 1, 22⟩,
        .opened ⟨segmentFileName 1, 0⟩) := by
    decide +kernel
  obtain ⟨w, hw, hresult⟩ := Option.map_eq_some_iff.mp hrun
  rw [hw, Option.map_some, Option.some.injEq] at hreads
  obtain ⟨volume, hexec, hvolume⟩ := Option.bind_eq_some_iff.mp hw
  obtain ⟨hfirst, hsecond⟩ := Prod.mk.inj hreads
  simp only [Prod.mk.injEq] at hresult
  obtain ⟨hsegments, hlookup, hdelete⟩ := hresult
  obtain ⟨after, hafter, hgone⟩ := Option.map_eq_some_iff.mp hdelete
  obtain ⟨hnames, hfile⟩ := Prod.mk.inj hgone
  have hround : ∀ fuel,
      Reader.drain w.dir w.segments fuel ⟨segmentFileName 1, 0⟩ = none ∧
        Reader.drain w.dir w.segments fuel ⟨segmentFileName 1, 22⟩ = none := by
    intro fuel
    induction fuel with
    | zero => exact ⟨rfl, rfl⟩
    | succ fuel ih =>
        simp only [Reader.drain, hfirst, hsecond, ih, Option.map_none, and_self]
  refine ⟨w, after, ?_, hsegments, fun fuel => (hround fuel).1, hlookup, hafter, hnames,
    Option.isNone_iff_eq_none.mp hfile⟩
  rw [hexec]
  cases volume with
  | down dir => contradiction
  | up other =>
      cases hvolume
      rfl

/-- Two sessions with rolls, a deletion and a crash inside an append. -/
def roomyTrace : List VolumeEvent :=
  [.start 30 .sync, .append ⟨0, .createQueue, lit "q", []⟩,
    .append ⟨0, .createQueue, lit "r", []⟩, .append ⟨0, .deleteQueue, lit "r", []⟩,
    .deleteBefore 2, .crashIn ⟨0, .deleteQueue, lit "q", []⟩ 5, .start 30 .noSync,
    .append ⟨0, .createQueue, lit "s", []⟩]

theorem roomy_trace_partitions :
    ∃ w, exec step (.down ∅) roomyTrace = some (.up w) ∧ w.segments.length = 3 ∧
      w.Partitioned ∧ (∀ reader, Reader.Ends w.dir w.segments reader) ∧
      ∀ lsn, ∃ stale, segmentsBefore lsn w.segments = some stale ∧ ∀ name ∈ stale,
        ∃ records, w.dir.lookup name = some (frames records) ∧
          ∀ rec ∈ records, rec.lsn < lsn := by
  have hrun : ((exec step (.down ∅) roomyTrace).bind Volume.wal).map
      (fun w => w.segments.length) = some 3 := by
    decide +kernel
  have hmeets : Meets step Roomy (.down ∅) roomyTrace := by
    decide +kernel
  obtain ⟨w, hw, hlength⟩ := Option.map_eq_some_iff.mp hrun
  obtain ⟨volume, hexec, hvolume⟩ := Option.bind_eq_some_iff.mp hw
  cases volume with
  | down dir => contradiction
  | up other =>
      cases hvolume
      exact ⟨w, hexec, hlength, segments_partition_log hmeets hexec⟩

end Volume

end SimonMQ.Durable
