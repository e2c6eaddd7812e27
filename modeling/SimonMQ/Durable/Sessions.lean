import SimonMQ.Durable.Append
import SimonMQ.Durable.Follow
import SimonMQ.Transition

namespace SimonMQ.Durable

open SimonMQ.Go
open SimonMQ.Transition

/-! One log directory over any number of processes: opens, appends whose system
calls may fail, and crashes between or inside appends. -/

/-- Number of leading segments that end at or before `lsn`. -/
def staleCount (lsn : UInt64) : Nat → List (List Record) → Nat
  | _, [] => 0
  | base, records :: rest =>
      if lsn.toNat < base + records.length then 0
      else staleCount lsn (base + records.length) rest + 1

theorem segmentNames_cons (base : Nat) (records : List Record)
    (closed : List (List Record)) :
    segmentNames base (records :: closed) =
      segName base :: segmentNames (base + records.length) closed :=
  segmentNames_split base [] closed records

theorem segmentsBefore_segmentNames (lsn : UInt64) {base : Nat}
    {closed : List (List Record)} (hbound : base + closed.flatten.length < 2 ^ 64) :
    segmentsBefore lsn (segmentNames base closed) =
      some ((closedFiles base (closed.take (staleCount lsn base closed))).map
        Prod.fst) := by
  induction closed generalizing base with
  | nil => rfl
  | cons records closed ih =>
      rw [List.flatten_cons, List.length_append] at hbound
      have hrest := @ih (base + records.length) (by omega)
      obtain ⟨rest, hcons⟩ := segmentNames_eq_cons (base + records.length) closed
      rw [segmentNames_cons, staleCount]
      rw [hcons] at hrest ⊢
      simp only [segmentsBefore, firstLSN_segName, UInt64.lt_iff_toNat_lt,
        toNat_ofNat_lsn (show base + records.length < 2 ^ 64 by omega)]
      split_ifs with hlater
      · simp [closedFiles]
      · rw [hrest]
        simp [closedFiles]

/-- An `END` record names a checkpoint file, as `runCheckpoint` writes it, and not a
segment. -/
def Record.SparesSegments (rec : Record) : Prop :=
  rec.opType = .endCheckpoint → ∀ endCkpt ∈ decodeEndCheckpoint rec.payload,
    ¬ hasSuffix endCkpt.fileName walSuffix

instance (rec : Record) : Decidable rec.SparesSegments :=
  inferInstanceAs (Decidable (_ → ∀ endCkpt ∈ decodeEndCheckpoint rec.payload, _))

theorem foldl_next_of_none {dir : Directory} {records : List Record}
    (hnone : ∀ rec ∈ records, checkpointOf dir rec = none) (scan : Scan) :
    (records.foldl (Scan.next dir) scan).records = scan.records ++ records ∧
      (records.foldl (Scan.next dir) scan).validCkptName = scan.validCkptName ∧
      (records.foldl (Scan.next dir) scan).validCkptLSN = scan.validCkptLSN := by
  induction records generalizing scan with
  | nil => simp
  | cons rec records ih =>
      have hrest := ih (fun other hmem => hnone other (List.mem_cons_of_mem _ hmem))
        (scan.next dir rec)
      have hhead : (scan.next dir rec).records = scan.records ++ [rec] ∧
          (scan.next dir rec).validCkptName = scan.validCkptName ∧
          (scan.next dir rec).validCkptLSN = scan.validCkptLSN := by
        unfold Scan.next
        split
        · exact ⟨rfl, rfl, rfl⟩
        · rw [hnone rec List.mem_cons_self]
          exact ⟨rfl, rfl, rfl⟩
      rw [List.foldl_cons, hrest.1, hrest.2.1, hrest.2.2, hhead.1, hhead.2.1, hhead.2.2]
      simp

structure Sessions where
  dir : Directory
  /-- the running process's log, if one runs -/
  wal : Option Wal
  /-- every record whose frame has reached a segment whole, in that order -/
  written : List Record
  /-- those among them whose `Append` returned success -/
  accepted : List Record
  /-- an `Append` of the running process failed after part of its frame, or all of
  it, had reached the segment -/
  spoiled : Bool

inductive SessionEvent
  | start (maxSegSize : Int) (mode : Mode)
  | append (rec : Record) (faults : Wal.AppendFaults)
  | crash
  /-- a crash inside an append, after any roll, with `cut` bytes of the frame on
  disk -/
  | crashIn (rec : Record) (cut : Nat)

namespace Sessions

def initial : Sessions := ⟨∅, none, [], [], false⟩

def step (s : Sessions) : SessionEvent → Option Sessions
  | .start maxSegSize mode =>
      match s.wal, Wal.openDir s.dir maxSegSize mode with
      | none, .ok w => some { s with dir := w.dir, wal := some w, spoiled := false }
      | _, _ => none
  | .append rec faults =>
      match s.wal with
      | none => none
      | some w =>
          let outcome := w.appendWith faults rec
          let frame := (w.stamp rec).encode
          let reached := w.reached faults rec
          some {
            dir := outcome.1.dir
            wal := some outcome.1
            written :=
              if reached = frame.length then s.written ++ [w.stamp rec] else s.written
            accepted :=
              match outcome.2 with
              | .ok _ => s.accepted ++ [w.stamp rec]
              | .error _ => s.accepted
            spoiled :=
              match outcome.2 with
              | .ok _ => s.spoiled
              | .error _ => s.spoiled || decide (0 < reached) }
  | .crash => some { s with wal := none }
  | .crashIn rec cut =>
      match s.wal with
      | none => none
      | some w =>
          match w.prepare rec {} with
          | .error _ => none
          | .ok ready =>
              let frame := (w.stamp rec).encode
              if !ready.fileOpen then none
              else some {
                s with
                dir := (ready.write (frame.take cut)).dir
                wal := none
                written :=
                  if frame.length ≤ cut then s.written ++ [w.stamp rec] else s.written }

/-- The records an event appends are within the readers' limit, and their `END`
records name checkpoint files. -/
def WithinLimit : SessionEvent → Prop
  | .append rec _ => rec.Fits ∧ rec.SparesSegments
  | .crashIn rec _ => rec.Fits ∧ rec.SparesSegments
  | _ => True

/-- Once a failed append has left bytes, no append of the same process touches the
directory again. -/
def Unspoiled (s : Sessions) : SessionEvent → Prop
  | .append rec faults => s.spoiled = true → ∀ w ∈ s.wal,
      w.reached faults rec = 0 ∧ ¬ w.rolls faults rec
  | .crashIn _ _ => s.spoiled = false
  | _ => True

/-- No system call fails, and no record is a checkpoint record. -/
def Faultless : SessionEvent → Prop
  | .append rec faults => faults = {} ∧ rec.Fits ∧
      rec.opType ≠ .beginCheckpoint ∧ rec.opType ≠ .endCheckpoint
  | .crashIn rec _ => rec.Fits ∧
      rec.opType ≠ .beginCheckpoint ∧ rec.opType ≠ .endCheckpoint
  | _ => True

def SegmentsOnly (dir : Directory) : Prop :=
  ∀ name content, dir.lookup name = some content → hasSuffix name walSuffix

/-! The invariant: the segments spell the written records, and a process that has
not spoiled its segment stands at their end. -/

structure Recorded (s : Sessions) : Prop where
  fits : ∀ rec ∈ s.written, rec.Fits
  spares : ∀ rec ∈ s.written, rec.SparesSegments
  segmentsOnly : SegmentsOnly s.dir
  sublist : s.accepted.Sublist s.written
  disk : (s.wal = none ∧ s.dir = ∅ ∧ s.written = []) ∨
    ∃ closed active tail, Layout s.dir 1 closed active tail ∧ Torn tail ∧
      closed.flatten ++ active = s.written
  process : ∀ w ∈ s.wal, w.dir = s.dir ∧ (s.spoiled = false →
    ∃ closed active, Ready w 1 closed active ∧ closed.flatten ++ active = s.written)

theorem recorded_initial : Recorded initial where
  fits := by simp [initial]
  spares := by simp [initial]
  segmentsOnly := by simp [SegmentsOnly, initial]
  sublist := .slnil
  disk := .inl ⟨rfl, rfl, rfl⟩
  process := by simp [initial]

theorem layout_write {ready : Wal} {closed : List (List Record)} {active : List Record}
    (hready : Ready ready 1 closed active) {rec : Record} (hfits : rec.Fits)
    (hbound : 1 + (closed.flatten ++ active).length + 1 < 2 ^ 64) (count : Nat) :
    ∃ active' tail,
      Layout (ready.write ((ready.stamp rec).encode.take count)).dir 1 closed active' tail ∧
      Torn tail ∧
      closed.flatten ++ active' =
        if (ready.stamp rec).encode.length ≤ count
        then closed.flatten ++ active ++ [ready.stamp rec] else closed.flatten ++ active := by
  split_ifs with hwhole
  · rw [List.take_of_length_le hwhole]
    exact ⟨_, [], hready.write_frame rec hbound, torn_nil, by simp⟩
  · exact ⟨active, _, hready.write_part _,
      ⟨ready.stamp rec, hfits, count, Nat.not_le.mp hwhole, rfl⟩, rfl⟩

theorem SegmentsOnly.appendTo {dir : Directory} (honly : SegmentsOnly dir)
    (file : GoString) (bytes : Bytes) : SegmentsOnly (dir.appendTo file bytes) := by
  intro name content hcontent
  rw [Directory.lookup_appendTo] at hcontent
  split_ifs at hcontent with hname
  · obtain ⟨old, hold, _⟩ := Option.map_eq_some_iff.mp hcontent
    subst hname
    exact honly name old hold
  · exact honly name content hcontent

theorem SegmentsOnly.truncate {dir : Directory} (honly : SegmentsOnly dir)
    (file : GoString) (size : Nat) : SegmentsOnly (dir.truncate file size) := by
  intro name content hcontent
  rw [Directory.lookup_truncate] at hcontent
  split_ifs at hcontent with hname
  · obtain ⟨old, hold, _⟩ := Option.map_eq_some_iff.mp hcontent
    subst hname
    exact honly name old hold
  · exact honly name content hcontent

theorem SegmentsOnly.openCreate {dir : Directory} (honly : SegmentsOnly dir)
    (lsn : UInt64) : SegmentsOnly (dir.openCreate (segmentFileName lsn)) := by
  intro name content hcontent
  rw [Directory.lookup_openCreate] at hcontent
  split_ifs at hcontent with hname
  · rw [hname]
    exact hasSuffix_segmentFileName lsn
  · exact honly name content hcontent

theorem SegmentsOnly.prepare {w ready : Wal} {rec : Record} {faults : Wal.AppendFaults}
    (honly : SegmentsOnly w.dir) (hprepare : w.prepare rec faults = .ok ready) :
    SegmentsOnly ready.dir := by
  unfold Wal.prepare Wal.rollSegment at hprepare
  split_ifs at hprepare
  · cases hprepare
    exact honly.openCreate w.nextLSN
  · cases hprepare
    exact honly

theorem openDir_empty (maxSegSize : Int) (mode : Mode) :
    ∃ w, Wal.openDir ∅ maxSegSize mode = .ok w ∧ Ready w 1 [] [] ∧
      w.segments = segmentNames 1 [] ∧ SegmentsOnly w.dir := by
  have hnames : Directory.namesWith ∅ walSuffix = [] := rfl
  have hnothing : SegmentsOnly ∅ := by simp [SegmentsOnly]
  refine ⟨_, by rw [Wal.openDir, hnames, Wal.recover]; rfl, ⟨?_, ?_, rfl⟩, ?_, ?_⟩
  · rw [segmentFileName_one]
    exact layout_fresh fun name _ => Finmap.lookup_empty name
  · exact segmentFileName_one
  · simp [segmentNames, closedFiles, segmentFileName_one]
  · exact hnothing.openCreate 1

theorem Recorded.opens {s : Sessions} (hrecorded : Recorded s) (maxSegSize : Int)
    (mode : Mode) :
    ∃ w closed active, Wal.openDir s.dir maxSegSize mode = .ok w ∧
      Ready w 1 closed active ∧ w.segments = segmentNames 1 closed ∧
      SegmentsOnly w.dir ∧ closed.flatten ++ active = s.written := by
  rcases hrecorded.disk with
    ⟨_, hempty, hnone⟩ | ⟨closed, active, tail, hlayout, htorn, hrecords⟩
  · obtain ⟨w, hopen, hready, hsegments, honly⟩ := openDir_empty maxSegSize mode
    exact ⟨w, [], [], hempty ▸ hopen, hready, hsegments, honly, by simp [hnone]⟩
  · have hactive : ∀ rec ∈ active, rec.Fits := by
      intro rec hmem
      exact hrecorded.fits rec (by rw [← hrecords]; simp [hmem])
    have hopen := hlayout.openDir hactive htorn maxSegSize mode
    exact ⟨_, closed, active, hopen, .ofOpen hlayout hactive htorn hopen, rfl,
      SegmentsOnly.truncate hrecorded.segmentsOnly _ _, hrecords⟩

theorem recorded_start {s next : Sessions} {maxSegSize : Int} {mode : Mode}
    (hrecorded : Recorded s) (hstep : step s (.start maxSegSize mode) = some next) :
    Recorded next := by
  obtain ⟨w, closed, active, hopen, hready, _, honly, hrecords⟩ :=
    hrecorded.opens maxSegSize mode
  simp only [step, hopen] at hstep
  split at hstep
  · rename_i other _ hok
    cases hstep
    cases hok
    refine ⟨hrecorded.fits, hrecorded.spares, honly, hrecorded.sublist, ?_, ?_⟩
    · exact .inr ⟨closed, active, [], hready.layout, torn_nil, hrecords⟩
    · rintro _ ⟨⟩
      exact ⟨rfl, fun _ => ⟨closed, active, hready, hrecords⟩⟩
  · contradiction

theorem Recorded.untouched {s next : Sessions} {w after : Wal} (hrecorded : Recorded s)
    (hwal : s.wal = some w) (hdir : next.dir = w.dir) (hafter : next.wal = some after)
    (hafterDir : after.dir = w.dir) (hwritten : next.written = s.written)
    (haccepted : next.accepted = s.accepted)
    (hspoiled : next.spoiled = false →
      s.spoiled = false ∧ after.file = w.file ∧ after.nextLSN = w.nextLSN) :
    Recorded next := by
  obtain ⟨hsame, hprocess⟩ := hrecorded.process w hwal
  have hdisk : next.dir = s.dir := hdir.trans hsame
  refine ⟨?_, ?_, ?_, ?_, ?_, ?_⟩
  · rw [hwritten]
    exact hrecorded.fits
  · rw [hwritten]
    exact hrecorded.spares
  · rw [hdisk]
    exact hrecorded.segmentsOnly
  · rw [hwritten, haccepted]
    exact hrecorded.sublist
  · rw [hdisk, hwritten]
    rcases hrecorded.disk with ⟨hnone, _⟩ | hlayout
    · rw [hwal] at hnone
      contradiction
    · exact .inr hlayout
  · intro current hcurrent
    rw [hafter] at hcurrent
    cases hcurrent
    refine ⟨hafterDir.trans hdir.symm, fun hclean => ?_⟩
    obtain ⟨hbefore, hfile, hnext⟩ := hspoiled hclean
    obtain ⟨closed, active, hready, hrecords⟩ := hprocess hbefore
    rw [hwritten]
    refine ⟨closed, active, ⟨?_, ?_, ?_⟩, hrecords⟩
    · rw [hafterDir]
      exact hready.layout
    · rw [hfile]
      exact hready.file
    · rw [hnext]
      exact hready.nextLSN

theorem Recorded.written {s next : Sessions} {w ready : Wal} {rec : Record}
    {faults : Wal.AppendFaults} (hrecorded : Recorded s) (hwal : s.wal = some w)
    (hclean : s.spoiled = false) (hlimit : rec.Fits ∧ rec.SparesSegments)
    (hprepare : w.prepare rec faults = .ok ready) (count : Nat)
    (hdir : next.dir = (ready.write ((w.stamp rec).encode.take count)).dir)
    (hwritten : next.written =
      if (w.stamp rec).encode.length ≤ count then s.written ++ [w.stamp rec]
      else s.written)
    (hcount : s.written.length + 2 < 2 ^ 64)
    (hsublist : next.accepted.Sublist next.written)
    (hprocess : ∀ after ∈ next.wal, after.dir = next.dir ∧ (next.spoiled = false →
      ∃ closed active, Ready after 1 closed active ∧
        closed.flatten ++ active = next.written)) :
    Recorded next := by
  obtain ⟨hsame, hready⟩ := hrecorded.process w hwal
  obtain ⟨closed, active, hready, hrecords⟩ := hready hclean
  obtain ⟨closed', active', hready', hrecords'⟩ := hready.prepare hprepare
  have hstamp := Wal.prepare_stamp hprepare
  have honly : SegmentsOnly w.dir := hsame ▸ hrecorded.segmentsOnly
  have hbound : 1 + (closed'.flatten ++ active').length + 1 < 2 ^ 64 := by
    rw [hrecords', hrecords]
    omega
  obtain ⟨active'', tail, hlayout, htorn, hwhole⟩ :=
    layout_write hready' hlimit.1 hbound count
  rw [hstamp, hrecords', hrecords, ← hwritten] at hwhole
  rw [hstamp, ← hdir] at hlayout
  have hnew : ∀ other ∈ next.written, other ∈ s.written ∨ other = w.stamp rec := by
    intro other hother
    rw [hwritten] at hother
    split_ifs at hother
    · simpa using hother
    · exact .inl hother
  refine ⟨?_, ?_, ?_, hsublist, .inr ⟨closed', active'', tail, hlayout, htorn, hwhole⟩,
    hprocess⟩
  · intro other hother
    rcases hnew other hother with hold | rfl
    · exact hrecorded.fits other hold
    · exact hlimit.1
  · intro other hother
    rcases hnew other hother with hold | rfl
    · exact hrecorded.spares other hold
    · exact hlimit.2
  · rw [hdir]
    exact (honly.prepare hprepare).appendTo _ _

theorem recorded_append {s next : Sessions} {rec : Record} {faults : Wal.AppendFaults}
    (hrecorded : Recorded s) (hlimit : WithinLimit (.append rec faults))
    (hunspoiled : Unspoiled s (.append rec faults))
    (hstep : step s (.append rec faults) = some next)
    (hcount : s.written.length + 2 < 2 ^ 64) : Recorded next := by
  simp only [step] at hstep
  split at hstep
  · contradiction
  · rename_i w hwal
    have hframe : 0 < (w.stamp rec).encode.length := by
      rw [Record.length_encode]
      omega
    have happended := w.appended faults rec
    generalize w.appendWith faults rec = outcome at hstep happended
    cases happended with
    | untouched err hsame hfile hnext hreached =>
        rw [hreached, if_neg (by omega)] at hstep
        cases hstep
        exact hrecorded.untouched hwal hsame rfl hsame rfl rfl
          fun hclean => ⟨by simpa using hclean, hfile, hnext⟩
    | @failed ready err count hprepare hreached =>
        cases hstep
        by_cases hspoiled : s.spoiled = true
        · obtain ⟨hnone, hrolls⟩ := hunspoiled hspoiled w hwal
          have hready := Wal.prepare_of_not_rolls hrolls hprepare
          have hcountZero : count = 0 := by omega
          subst hready
          subst hcountZero
          have hwrite : (ready.write ((ready.stamp rec).encode.take 0)).dir = ready.dir := by
            simp [Wal.write]
          refine hrecorded.untouched hwal hwrite rfl hwrite ?_ rfl fun hclean => ?_
          · dsimp only
            rw [hnone, if_neg (by omega)]
          · simp [hspoiled] at hclean
        · have hclean : s.spoiled = false := by simpa using hspoiled
          refine hrecorded.written hwal hclean hlimit hprepare count rfl ?_ hcount ?_ ?_
          · dsimp only
            rw [hreached]
            split_ifs <;> first | rfl | omega
          · dsimp only
            split_ifs
            · exact hrecorded.sublist.trans (List.sublist_append_left _ _)
            · exact hrecorded.sublist
          · rintro _ ⟨⟩
            refine ⟨rfl, fun hstill => ?_⟩
            have hzero : count = 0 := by
              simp [hclean, hreached] at hstill
              omega
            subst hzero
            obtain ⟨closed, active, hready, hrecords⟩ := (hrecorded.process w hwal).2 hclean
            obtain ⟨closed', active', hready', hrecords'⟩ := hready.prepare hprepare
            refine ⟨closed', active', ?_, ?_⟩
            · have hsame : ready.write ((w.stamp rec).encode.take 0) = ready := by
                simp [Wal.write]
              rw [hsame]
              exact hready'
            · rw [hrecords', hrecords, hreached]
              dsimp only
              rw [if_neg (by omega)]
    | @succeeded ready hprepare hreached =>
        cases hstep
        have hclean : s.spoiled = false := by
          by_contra hspoiled
          have := (hunspoiled (by simpa using hspoiled) w hwal).1
          omega
        refine hrecorded.written hwal hclean hlimit hprepare (w.stamp rec).encode.length
          ?_ ?_ hcount ?_ ?_
        · dsimp only
          rw [List.take_length]
          rfl
        · dsimp only
          rw [hreached, if_pos rfl, if_pos (Nat.le_refl _)]
        · dsimp only
          rw [hreached, if_pos rfl]
          exact hrecorded.sublist.append_right _
        · rintro _ ⟨⟩
          refine ⟨rfl, fun _ => ?_⟩
          obtain ⟨closed, active, hready, hrecords⟩ := (hrecorded.process w hwal).2 hclean
          obtain ⟨closed', active', hready', hrecords'⟩ := hready.prepare hprepare
          have hstamp := Wal.prepare_stamp hprepare
          have hcommit := hready'.commit rec (by rw [hrecords', hrecords]; omega)
            (w.stamp rec).encode.length
          rw [hstamp] at hcommit
          refine ⟨closed', _, hcommit, ?_⟩
          dsimp only
          rw [hreached, if_pos rfl, ← hrecords, ← hrecords', List.append_assoc]

theorem recorded_crashIn {s next : Sessions} {rec : Record} {cut : Nat}
    (hrecorded : Recorded s) (hlimit : WithinLimit (.crashIn rec cut))
    (hunspoiled : Unspoiled s (.crashIn rec cut))
    (hstep : step s (.crashIn rec cut) = some next)
    (hcount : s.written.length + 2 < 2 ^ 64) : Recorded next := by
  simp only [step] at hstep
  split at hstep
  · contradiction
  · rename_i w hwal
    split at hstep
    · contradiction
    · rename_i ready hprepare
      split_ifs at hstep with hopen hwhole
      · cases hstep
        refine hrecorded.written hwal hunspoiled hlimit hprepare cut rfl ?_ hcount ?_ ?_
        · rw [if_pos hwhole]
        · exact hrecorded.sublist.trans (List.sublist_append_left _ _)
        · simp
      · cases hstep
        refine hrecorded.written hwal hunspoiled hlimit hprepare cut rfl ?_ hcount ?_ ?_
        · rw [if_neg hwhole]
        · exact hrecorded.sublist
        · simp

theorem written_mono {s next : Sessions} {event : SessionEvent}
    (hstep : step s event = some next) : s.written.length ≤ next.written.length := by
  cases event with
  | start maxSegSize mode =>
      simp only [step] at hstep
      split at hstep
      · cases hstep
        exact Nat.le_refl _
      · contradiction
  | append rec faults =>
      simp only [step] at hstep
      split at hstep
      · contradiction
      · cases hstep
        dsimp only
        split_ifs <;> simp
  | crash =>
      cases hstep
      exact Nat.le_refl _
  | crashIn rec cut =>
      simp only [step] at hstep
      split at hstep
      · contradiction
      · split at hstep
        · contradiction
        · split_ifs at hstep <;> cases hstep <;> simp

theorem recorded_step {s next : Sessions} {event : SessionEvent} (hrecorded : Recorded s)
    (hlimit : WithinLimit event) (hunspoiled : Unspoiled s event)
    (hstep : step s event = some next) (hcount : s.written.length + 2 < 2 ^ 64) :
    Recorded next := by
  cases event with
  | start maxSegSize mode => exact recorded_start hrecorded hstep
  | append rec faults => exact recorded_append hrecorded hlimit hunspoiled hstep hcount
  | crash =>
      cases hstep
      refine ⟨hrecorded.fits, hrecorded.spares, hrecorded.segmentsOnly,
        hrecorded.sublist, ?_, by simp⟩
      rcases hrecorded.disk with ⟨_, hempty⟩ | hlayout
      · exact .inl ⟨rfl, hempty⟩
      · exact .inr hlayout
  | crashIn rec cut => exact recorded_crashIn hrecorded hlimit hunspoiled hstep hcount

theorem recorded_run {events : List SessionEvent} {s : Sessions}
    (hmeets : Meets step (fun s event => WithinLimit event ∧ Unspoiled s event)
      initial events)
    (hexec : exec step initial events = some s)
    (hcount : s.written.length + 2 < 2 ^ 64) : Recorded s := by
  have hrun : s.written.length + 2 < 2 ^ 64 → Recorded s := by
    refine exec_invariant (P := fun s => s.written.length + 2 < 2 ^ 64 → Recorded s)
      ?_ (fun _ => recorded_initial) hmeets hexec
    intro state event next hstate hcondition hstep hnext
    have hmono := written_mono hstep
    exact recorded_step (hstate (by omega)) hcondition.1 hcondition.2 hstep (by omega)
  exact hrun hcount

theorem Recorded.numbered {s : Sessions} (hrecorded : Recorded s) :
    Numbered 1 s.written := by
  rcases hrecorded.disk with ⟨_, _, hnone⟩ | ⟨closed, active, tail, hlayout, _, hrecords⟩
  · rw [hnone]
    trivial
  · rw [← hrecords]
    exact hlayout.numbered

theorem readAll_of_layout {w : Wal} {closed : List (List Record)} {active : List Record}
    (hready : Ready w 1 closed active) (hsegments : w.segments = segmentNames 1 closed)
    (hfits : ∀ rec ∈ closed.flatten ++ active, rec.Fits)
    (hspares : ∀ rec ∈ closed.flatten ++ active, rec.SparesSegments)
    (honly : SegmentsOnly w.dir) :
    ∃ enough, ∀ fuel, enough ≤ fuel →
      ∃ after, w.readAll fuel = some (.ok after (closed.flatten ++ active)) := by
  have hunusable : ∀ rec ∈ closed.flatten ++ active, rec.opType = .endCheckpoint →
      ∀ endCkpt, decodeEndCheckpoint rec.payload = some endCkpt →
        resolveCheckpoint w.dir endCkpt = .unusable := by
    intro rec hmem hop endCkpt hdecode
    have hnone : w.dir.lookup endCkpt.fileName = none := by
      cases hlookup : w.dir.lookup endCkpt.fileName with
      | none => rfl
      | some content =>
          exact absurd (honly _ _ hlookup) (hspares rec hmem hop endCkpt hdecode)
    simp only [resolveCheckpoint, hnone]
  have hquiet : ∀ rec ∈ closed.flatten ++ active, Quiet w.dir rec :=
    fun rec hmem hop endCkpt hdecode => .inr (hunusable rec hmem hop endCkpt hdecode)
  have hnone : ∀ rec ∈ closed.flatten ++ active, checkpointOf w.dir rec = none := by
    intro rec hmem
    unfold checkpointOf
    cases hop : rec.opType with
    | endCheckpoint =>
        cases hdecode : decodeEndCheckpoint rec.payload with
        | none => rfl
        | some endCkpt => simp only [hunusable rec hmem hop endCkpt hdecode]
    | _ => rfl
  obtain ⟨hrecords, _, hlsn⟩ := foldl_next_of_none hnone {}
  obtain ⟨enough, henough⟩ :=
    (hready.layout.yields hfits torn_nil).readLoop hquiet {}
  obtain ⟨rest, hcons⟩ := segmentNames_eq_cons 1 closed
  refine ⟨enough, fun fuel hfuel => ?_⟩
  have hreader : w.openReader = some ⟨segName 1, 0⟩ := by
    rw [Wal.openReader, hsegments, hcons]
    rfl
  simp only [Wal.readAll, hreader, hsegments, henough fuel hfuel, Wal.conclude,
    Wal.cleanUp, hlsn, segmentsBefore_segmentNames 0 hready.layout.active_lt]
  rw [hrecords]
  exact ⟨_, rfl⟩

/-- The records that `Open` and `ReadAll` bring up, if neither of them fails. -/
def reread (dir : Directory) (maxSegSize : Int) (mode : Mode) (fuel : Nat) :
    Option (List Record) :=
  match Wal.openDir dir maxSegSize mode with
  | .error _ => none
  | .ok w =>
      match w.readAll fuel with
      | some (.ok _ records) => some records
      | _ => none

theorem reread_mono {dir : Directory} {maxSegSize : Int} {mode : Mode} {fuel more : Nat}
    {records : List Record} (hreread : reread dir maxSegSize mode fuel = some records)
    (hfuel : fuel ≤ more) : reread dir maxSegSize mode more = some records := by
  unfold reread at hreread ⊢
  cases hopen : Wal.openDir dir maxSegSize mode with
  | error err =>
      rw [hopen] at hreread
      contradiction
  | ok w =>
      rw [hopen] at hreread
      dsimp only at hreread ⊢
      cases hread : w.readAll fuel with
      | none =>
          rw [hread] at hreread
          contradiction
      | some result =>
          rw [hread] at hreread
          rw [Wal.readAll_mono hread hfuel]
          exact hreread

theorem Recorded.reread {s : Sessions} (hrecorded : Recorded s) (maxSegSize : Int)
    (mode : Mode) :
    ∃ enough, ∀ fuel, enough ≤ fuel →
      Sessions.reread s.dir maxSegSize mode fuel = some s.written := by
  obtain ⟨w, closed, active, hopen, hready, hsegments, honly, hrecords⟩ :=
    hrecorded.opens maxSegSize mode
  obtain ⟨enough, henough⟩ := readAll_of_layout hready hsegments
    (by rw [hrecords]; exact hrecorded.fits) (by rw [hrecords]; exact hrecorded.spares)
    honly
  refine ⟨enough, fun fuel hfuel => ?_⟩
  obtain ⟨after, hread⟩ := henough fuel hfuel
  simp only [Sessions.reread, hopen, hread, hrecords]

/-! Without faults nothing is ever spoiled. -/

structure Unharmed (s : Sessions) : Prop where
  clean : s.spoiled = false
  usable : ∀ w ∈ s.wal, w.fileOpen = true

theorem unharmed_step {s next : Sessions} {event : SessionEvent} (hunharmed : Unharmed s)
    (hfaultless : Faultless event) (hstep : step s event = some next) :
    Unharmed next := by
  cases event with
  | start maxSegSize mode =>
      simp only [step] at hstep
      split at hstep
      · rename_i w _ hopen
        cases hstep
        refine ⟨rfl, ?_⟩
        rintro _ ⟨⟩
        exact Wal.openDir_usable hopen
      · contradiction
  | append rec faults =>
      obtain ⟨rfl, _⟩ := hfaultless
      simp only [step] at hstep
      split at hstep
      · contradiction
      · rename_i w hwal
        obtain ⟨hopen, hsucceeded⟩ := Wal.append_usable (hunharmed.usable w hwal) rec
        rw [Wal.append] at hopen hsucceeded
        cases hstep
        simp only [hsucceeded]
        refine ⟨hunharmed.clean, ?_⟩
        rintro _ ⟨⟩
        exact hopen
  | crash =>
      cases hstep
      exact ⟨hunharmed.clean, by simp⟩
  | crashIn rec cut =>
      simp only [step] at hstep
      split at hstep
      · contradiction
      · split at hstep
        · contradiction
        · split_ifs at hstep <;> cases hstep <;> exact ⟨hunharmed.clean, by simp⟩

theorem meets_of_faultless {events : List SessionEvent}
    (hfaultless : ∀ event ∈ events, Faultless event) :
    Meets step (fun s event => WithinLimit event ∧ Unspoiled s event) initial events := by
  refine meets_of_invariant (P := Unharmed) unharmed_step ?_ ⟨rfl, by simp [initial]⟩
    hfaultless
  intro s event hunharmed hevent
  cases event with
  | start maxSegSize mode => exact ⟨trivial, trivial⟩
  | append rec faults =>
      obtain ⟨_, hfits, _, hend⟩ := hevent
      refine ⟨⟨hfits, fun hop => absurd hop hend⟩, fun hspoiled => ?_⟩
      rw [hunharmed.clean] at hspoiled
      contradiction
  | crash => exact ⟨trivial, trivial⟩
  | crashIn rec cut =>
      obtain ⟨hfits, _, hend⟩ := hevent
      exact ⟨⟨hfits, fun hop => absurd hop hend⟩, hunharmed.clean⟩

/-- Across any number of sessions and crashes, `Open` and `ReadAll` bring up exactly
the records that were appended, those a crash left whole included, numbered from
one without a gap. -/
theorem reopened_log_is_continuous {events : List SessionEvent} {s : Sessions}
    (hfaultless : ∀ event ∈ events, Faultless event)
    (hexec : exec step initial events = some s)
    (hcount : s.written.length + 2 < 2 ^ 64) (maxSegSize : Int) (mode : Mode) :
    (∃ enough, ∀ fuel, enough ≤ fuel →
      reread s.dir maxSegSize mode fuel = some s.written) ∧
      s.accepted.Sublist s.written ∧ Numbered 1 s.written := by
  have hrecorded := recorded_run (meets_of_faultless hfaultless) hexec hcount
  exact ⟨hrecorded.reread maxSegSize mode, hrecorded.sublist, hrecorded.numbered⟩

/-- Two sessions of small segments with a crash inside an append: the torn record is
gone, the whole one stays. -/
def crashTrace : List SessionEvent :=
  [.start 60 .sync, .append ⟨0, .createQueue, lit "orders", []⟩ {},
    .append ⟨0, .createQueue, lit "mail", []⟩ {},
    .crashIn ⟨0, .deleteQueue, lit "mail", []⟩ 9, .start 60 .noSync,
    .append ⟨0, .createQueue, lit "audit", []⟩ {},
    .crashIn ⟨0, .deleteQueue, lit "orders", []⟩ 27]

theorem crash_trace_is_continuous :
    ∃ s, exec step initial crashTrace = some s ∧ s.accepted.length = 3 ∧
      s.written.length = 4 ∧
      (∃ enough, ∀ fuel, enough ≤ fuel → reread s.dir 60 .sync fuel = some s.written) ∧
      s.accepted.Sublist s.written ∧ Numbered 1 s.written := by
  have hrun : (exec step initial crashTrace).map
      (fun s => (s.accepted.length, s.written.length)) = some (3, 4) := by
    decide +kernel
  have hfaultless : ∀ event ∈ crashTrace, Faultless event := by
    simp [crashTrace, Faultless, Record.Fits, Record.lengthField, maxLogLength]
    decide
  obtain ⟨s, hexec, hlengths⟩ := Option.map_eq_some_iff.mp hrun
  obtain ⟨haccepted, hwritten⟩ := Prod.mk.inj hlengths
  exact ⟨s, hexec, haccepted, hwritten,
    reopened_log_is_continuous hfaultless hexec (by omega) 60 .sync⟩

/-- As long as no append touches the directory after another one has failed with
bytes in the segment, whatever fails: every accepted record comes up again, in
order, and no LSN twice. -/
theorem accepted_survive_failed_appends {events : List SessionEvent} {s : Sessions}
    (hmeets : Meets step (fun s event => WithinLimit event ∧ Unspoiled s event)
      initial events)
    (hexec : exec step initial events = some s)
    (hcount : s.written.length + 2 < 2 ^ 64) (maxSegSize : Int) (mode : Mode) :
    ∃ records, s.accepted.Sublist records ∧
      records.Pairwise (fun left right => left.lsn < right.lsn) ∧
      ∃ enough, ∀ fuel, enough ≤ fuel →
        reread s.dir maxSegSize mode fuel = some records := by
  have hrecorded := recorded_run hmeets hexec hcount
  exact ⟨s.written, hrecorded.sublist, hrecorded.numbered.pairwise,
    hrecorded.reread maxSegSize mode⟩

/-- A write that fails after twelve bytes, then an append that succeeds. -/
def spoiledTrace : List SessionEvent :=
  [.start 1000 .sync, .append ⟨0, .createQueue, lit "mail", []⟩ { written := some 12 },
    .append ⟨0, .createQueue, lit "orders", []⟩ {}]

/-- The accepted record lies behind the failed one's bytes, and a restart cuts it
off. -/
theorem failed_write_hides_accepted_record :
    ∃ s, exec step initial spoiledTrace = some s ∧
      (∀ event ∈ spoiledTrace, WithinLimit event) ∧
      s.accepted = [⟨1, .createQueue, lit "orders", []⟩] ∧
      reread s.dir 1000 .sync 5 = some [] := by
  have hrun : (exec step initial spoiledTrace).map
      (fun s => (s.accepted, reread s.dir 1000 .sync 5)) =
        some ([⟨1, .createQueue, lit "orders", []⟩], some []) := by
    decide +kernel
  have hlimit : ∀ event ∈ spoiledTrace, WithinLimit event := by
    simp [spoiledTrace, WithinLimit, Record.Fits, Record.SparesSegments,
      Record.lengthField, maxLogLength]
    decide
  obtain ⟨s, hexec, hresult⟩ := Option.map_eq_some_iff.mp hrun
  obtain ⟨haccepted, hreread⟩ := Prod.mk.inj hresult
  exact ⟨s, hexec, hlimit, haccepted, hreread⟩

/-- A failed write that leaves nothing, a failed sync, and no append after it. -/
def harmlessTrace : List SessionEvent :=
  [.start 40 .sync, .append ⟨0, .createQueue, lit "orders", []⟩ {},
    .append ⟨0, .createQueue, lit "mail", []⟩ { written := some 0 },
    .append ⟨0, .createQueue, lit "audit", []⟩ {},
    .append ⟨0, .deleteQueue, lit "audit", []⟩ { syncOk := false }, .crash]

instance (event : SessionEvent) : Decidable (WithinLimit event) :=
  match event with
  | .start _ _ => isTrue trivial
  | .append rec _ => inferInstanceAs (Decidable (rec.Fits ∧ rec.SparesSegments))
  | .crash => isTrue trivial
  | .crashIn rec _ => inferInstanceAs (Decidable (rec.Fits ∧ rec.SparesSegments))

instance (s : Sessions) (event : SessionEvent) : Decidable (Unspoiled s event) :=
  match event with
  | .start _ _ => isTrue trivial
  | .append rec faults => inferInstanceAs (Decidable (s.spoiled = true → ∀ w ∈ s.wal,
      w.reached faults rec = 0 ∧ ¬ w.rolls faults rec))
  | .crash => isTrue trivial
  | .crashIn _ _ => inferInstanceAs (Decidable (s.spoiled = false))

theorem harmless_trace_keeps_accepted :
    ∃ s, exec step initial harmlessTrace = some s ∧ s.accepted.length = 2 ∧
      ∃ records, s.accepted.Sublist records ∧
        records.Pairwise (fun left right => left.lsn < right.lsn) ∧
        ∃ enough, ∀ fuel, enough ≤ fuel →
          reread s.dir 40 .sync fuel = some records := by
  have hrun : (exec step initial harmlessTrace).map
      (fun s => (s.accepted.length, s.written.length)) = some (2, 3) := by
    decide +kernel
  have hmeets : Meets step (fun s event => WithinLimit event ∧ Unspoiled s event)
      initial harmlessTrace := by
    decide +kernel
  obtain ⟨s, hexec, hlengths⟩ := Option.map_eq_some_iff.mp hrun
  obtain ⟨haccepted, hwritten⟩ := Prod.mk.inj hlengths
  exact ⟨s, hexec, haccepted,
    accepted_survive_failed_appends hmeets hexec (by omega) 40 .sync⟩

end Sessions

end SimonMQ.Durable
