import SimonMQ.Durable.Serving
import SimonMQ.Transition

namespace SimonMQ.Durable

open SimonMQ.Go SimonMQ.Transition

/-! One directory over any number of processes.  Whatever survives on disk reads back
to the same service as the log of all records ever appended. -/

/-- The records rebuild what the log means, where it means anything. -/
def Recovers (records log : List Record) : Prop :=
  ({} : Ledger).AdmitsAll log →
    ({} : Ledger).AdmitsAll records ∧
      ({} : Ledger).followAll records = ({} : Ledger).followAll log

def Cleaning.Keeps (stage : Cleaning) (w : Wal) (dropped : List Record)
    (closed : List (List Record)) (active : List Record) (scan : Scan) : Prop :=
  let base := dropped.length + 1
  match stage with
  | .checkpoints left => w.segments = segmentNames base closed ∧
      (∀ name ∈ left, hasSuffix name ckptSuffix ∧ name ≠ scan.validCkptName) ∧
      (scan.validCkptLSN ≠ 0 →
        Anchor w.dir (closed.flatten ++ active) scan.validCkptName
          scan.validCkptLSN.toNat) ∧
      (dropped = [] ∨ scan.validCkptLSN ≠ 0)
  | .segments stale left =>
      Sweeping w dropped closed active scan.validCkptName stale left
  | .tmpFiles left => w.segments = segmentNames base closed ∧
      ∀ name ∈ left, hasSuffix name tmpSuffix

/-- The directory holds the log, and the process, if there is one, knows where. -/
def Status.Sane (status : Status) (log : List Record) : Prop :=
  match status with
  | .down dir => (dir = ∅ ∧ log = []) ∨
      ∃ dropped closed active tail, Disk dir log dropped closed active tail
  | .starting w _ scan stage => ∃ dropped closed active,
      Disk w.dir log dropped closed active [] ∧
      Live w (dropped.length + 1) closed active ∧ Recovers scan.records log ∧
      stage.Keeps w dropped closed active scan
  | .up c => ∃ dropped closed active, c.Sane log dropped closed active ∧
      (({} : Ledger).AdmitsAll log → c.cat = (({} : Ledger).followAll log).catalog)

structure Node.Sane (s : Node) : Prop where
  genuine : Genuine s.log
  status : s.status.Sane s.log

theorem Node.sane_initial : Node.initial.Sane where
  genuine := by
    intro before rec hat
    simp [Node.initial] at hat
  status := .inl ⟨rfl, rfl⟩

theorem Status.Sane.crashed {status : Status} {log : List Record}
    (hsane : status.Sane log) : (Status.down status.dir).Sane log := by
  cases status with
  | down dir => exact hsane
  | starting w ckptThreshold scan stage =>
      obtain ⟨dropped, closed, active, hdisk, -⟩ := hsane
      exact .inr ⟨dropped, closed, active, [], hdisk⟩
  | up c =>
      obtain ⟨dropped, closed, active, hcoordinator, -⟩ := hsane
      exact .inr ⟨dropped, closed, active, [], hcoordinator.disk⟩

/-! Opening. -/

theorem Disk.opened {dir : Directory} {log dropped : List Record}
    {closed : List (List Record)} {active : List Record} {tail : Bytes}
    (hdisk : Disk dir log dropped closed active tail) (maxSegSize : Int) (mode : Mode) :
    ∃ w, Wal.openDir dir maxSegSize mode = .ok w ∧
      Disk w.dir log dropped closed active [] ∧
      Live w (dropped.length + 1) closed active ∧
      w.segments = segmentNames (dropped.length + 1) closed := by
  have hfits : ∀ rec ∈ active, rec.Fits :=
    fun rec hmem => hdisk.fits rec (hdisk.mem_log (List.mem_append_right _ hmem))
  have hopen := hdisk.layout.openDir hfits hdisk.torn maxSegSize mode
  refine ⟨_, hopen, ?_, Live.ofOpen hdisk.layout hfits hdisk.torn hopen, rfl⟩
  apply hdisk.reshape hdisk.layout.dropTail rfl torn_nil
  intro name hckpt
  rw [Directory.lookup_truncate, if_neg]
  rintro rfl
  exact not_wal_of_ckpt hckpt (hasSuffix_segName _)

theorem disk_fresh {dir : Directory} (hlayout : Layout dir 1 [] [] []) :
    Disk dir [] [] [] [] [] where
  layout := hlayout
  whole := rfl
  torn := torn_nil
  numbered := trivial
  fits := by simp
  named := by simp
  checkpointed := ⟨by simp, by simp⟩
  anchored := .inl rfl

theorem Status.Sane.opens {dir : Directory} {log : List Record}
    (hsane : (Status.down dir).Sane log) (maxSegSize : Int) (mode : Mode) :
    ∃ w dropped closed active, Wal.openDir dir maxSegSize mode = .ok w ∧
      Disk w.dir log dropped closed active [] ∧
      Live w (dropped.length + 1) closed active ∧
      w.segments = segmentNames (dropped.length + 1) closed := by
  rcases hsane with ⟨rfl, rfl⟩ | ⟨dropped, closed, active, tail, hdisk⟩
  · obtain ⟨w, hopen, hlive, hsegments⟩ := live_of_empty maxSegSize mode
    exact ⟨w, [], [], [], hopen, disk_fresh hlive.ready.layout, hlive, hsegments⟩
  · obtain ⟨w, hopen, hrest⟩ := hdisk.opened maxSegSize mode
    exact ⟨w, dropped, closed, active, hopen, hrest⟩

theorem openReader_of_names {w : Wal} {base : Nat} {closed : List (List Record)}
    (hsegments : w.segments = segmentNames base closed) :
    w.openReader = some ⟨segName base, 0⟩ := by
  obtain ⟨rest, hrest⟩ := segmentNames_eq_cons base closed
  exact openReader_of_head (hsegments.trans hrest)

section Startup

variable {w : Wal} {log dropped : List Record} {closed : List (List Record)}
  {active : List Record} {scan : Scan} {ckptThreshold : Int}

theorem Disk.readLoop_eq {tail : Bytes} {fuel : Nat} {dir : Directory}
    (hdisk : Disk w.dir log dropped closed active tail)
    (hloop : Durable.readLoop (segmentNames (dropped.length + 1) closed) none fuel w.dir
      ⟨segName (dropped.length + 1), 0⟩ {} = some (.returned dir scan)) :
    dir = w.dir ∧ scan = (closed.flatten ++ active).foldl (Scan.next w.dir) {} := by
  obtain ⟨enough, henough⟩ := hdisk.readLoop
  have hreturned := henough (max fuel enough) (Nat.le_max_right _ _)
  rw [readLoop_mono hloop (Nat.le_max_left _ _), Option.some.injEq,
    LoopStep.returned.injEq] at hreturned
  exact hreturned

theorem Disk.recovers {tail : Bytes} (hdisk : Disk w.dir log dropped closed active tail) :
    Recovers ((closed.flatten ++ active).foldl (Scan.next w.dir) {}).records log := by
  have hrebuilt := hdisk.scanned.rebuilt hdisk.anchored
  rw [hdisk.whole] at hrebuilt
  exact hrebuilt

theorem Node.start_sane {dir : Directory} {config : Config} {fuel : Nat} {status : Status}
    (hsane : (Status.down dir).Sane log) (hstart : Node.start dir config fuel = some status) :
    status.Sane log := by
  obtain ⟨w, dropped, closed, active, hopen, hdisk, hlive, hsegments⟩ :=
    hsane.opens config.segSize config.mode
  simp only [Node.start, hopen, openReader_of_names hsegments] at hstart
  split at hstart
  · rename_i after scan hloop
    cases hstart
    rw [hsegments] at hloop
    obtain ⟨rfl, hscan⟩ := hdisk.readLoop_eq hloop
    have hscanned := hdisk.scanned
    rw [← hscan] at hscanned
    refine ⟨dropped, closed, active, hdisk, hlive, ?_, hsegments, ?_, hscanned.valid, ?_⟩
    · rw [hscan]
      exact hdisk.recovers
    · exact fun name hmem => staleCheckpoints_suffix hmem
    · exact hdisk.anchored.imp_right hscanned.last
  · contradiction

/-! Cleaning up. -/

theorem sane_cleanCheckpoint {name : GoString} {left : List GoString}
    (hsane : (Status.starting w ckptThreshold scan (.checkpoints (name :: left))).Sane log) :
    (Status.starting { w with dir := w.dir.erase name } ckptThreshold scan
      (.checkpoints left)).Sane log := by
  obtain ⟨dropped, closed, active, hdisk, hlive, hrecovers, hsegments, hleft, hvalid,
    hanchored⟩ := hsane
  obtain ⟨hsuffix, hname⟩ := hleft name List.mem_cons_self
  have hafter : Disk (w.dir.erase name) log dropped closed active [] := by
    apply hdisk.removeCheckpoint hsuffix
    rcases hanchored with hnil | hlsn
    · exact .inl hnil
    · exact .inr ⟨scan.validCkptName, _, hname.symm, hvalid hlsn⟩
  refine ⟨dropped, closed, active, hafter, hlive.withDir hafter.layout, hrecovers,
    hsegments, fun other hmem => hleft other (List.mem_cons_of_mem _ hmem), ?_, hanchored⟩
  intro hlsn
  apply (hvalid hlsn).congr
  rw [GoMap.lookup_erase_eq, if_neg hname.symm]

theorem sane_cleanTmp {name : GoString} {left : List GoString}
    (hsane : (Status.starting w ckptThreshold scan (.tmpFiles (name :: left))).Sane log) :
    (Status.starting { w with dir := w.dir.erase name } ckptThreshold scan
      (.tmpFiles left)).Sane log := by
  obtain ⟨dropped, closed, active, hdisk, hlive, hrecovers, hsegments, hleft⟩ := hsane
  have htmp := hleft name List.mem_cons_self
  have hafter : Disk (w.dir.erase name) log dropped closed active [] := by
    apply hdisk.congr
    · intro other hwal
      rw [GoMap.lookup_erase_eq, if_neg]
      rintro rfl
      exact not_wal_of_tmp htmp hwal
    · intro rec hmem endCkpt hend
      rw [GoMap.lookup_erase_eq, if_neg]
      intro heq
      have hckpt := hdisk.named rec hmem endCkpt hend
      rw [heq] at hckpt
      exact not_ckpt_of_tmp htmp hckpt
  exact ⟨dropped, closed, active, hafter, hlive.withDir hafter.layout, hrecovers, hsegments,
    fun other hmem => hleft other (List.mem_cons_of_mem _ hmem)⟩

theorem Recovers.catalog {records : List Record} {replayed : Replayed}
    (hrecovers : Recovers records log)
    (hreplay : Replayed.replay {} records = .ok replayed)
    (hadmits : ({} : Ledger).AdmitsAll log) :
    replayed.cat = (({} : Ledger).followAll log).catalog := by
  obtain ⟨hrecords, hsame⟩ := hrecovers hadmits
  obtain ⟨final, hfinal, hreflects⟩ := Replayed.reflects_empty.replay hrecords
  rw [hreplay] at hfinal
  cases hfinal
  rw [hreflects.catalog, hsame]

theorem Node.clean_sane {stage : Cleaning} {status : Status}
    (hsane : (Status.starting w ckptThreshold scan stage).Sane log)
    (hclean : Node.clean w ckptThreshold scan stage = some status) : status.Sane log := by
  cases stage with
  | checkpoints left =>
      cases left with
      | cons name left =>
          cases hclean
          exact sane_cleanCheckpoint hsane
      | nil =>
          obtain ⟨dropped, closed, active, hdisk, hlive, hrecovers, hsegments, _, hvalid, _⟩ :=
            hsane
          obtain ⟨stale, hstale, hsweep⟩ := hdisk.sweeping hsegments hvalid
          simp only [Node.clean, hstale, Option.some.injEq] at hclean
          subst hclean
          exact ⟨dropped, closed, active, hdisk, hlive, hrecovers, hsweep⟩
  | segments stale left =>
      obtain ⟨dropped, closed, active, hdisk, hlive, hrecovers, hsweep⟩ := hsane
      cases left with
      | cons segment left =>
          cases hclean
          obtain ⟨dropped', closed', hdisk', hlive', hsweep', -⟩ := hsweep.remove hdisk hlive
          exact ⟨dropped', closed', active, hdisk', hlive', hrecovers, hsweep'⟩
      | nil =>
          cases hclean
          refine ⟨dropped, closed, active, hdisk, hlive.withSegments _, hrecovers,
            hsweep.forget hdisk, fun name hmem => ?_⟩
          exact (Directory.mem_namesWith.mp hmem).1
  | tmpFiles left =>
      cases left with
      | cons name left =>
          cases hclean
          exact sane_cleanTmp hsane
      | nil =>
          obtain ⟨dropped, closed, active, hdisk, hlive, hrecovers, hsegments, _⟩ := hsane
          simp only [Node.clean] at hclean
          split at hclean
          · rename_i replayed hreplay
            cases hclean
            exact ⟨dropped, closed, active, ⟨hdisk, hlive, .plain hsegments,
              fun hidle => absurd rfl hidle⟩, hrecovers.catalog hreplay⟩
          · cases hclean
            exact .inr ⟨dropped, closed, active, [], hdisk⟩

end Startup

/-! The service. -/

theorem Coordinator.Appends.vouches {c : Coordinator} {author : Author} {rec : Record}
    {log : List Record} (happends : c.Appends author rec)
    (hcat : c.cat = (({} : Ledger).followAll log).catalog) :
    Catalog.Vouches (({} : Ledger).followAll log).catalog (c.log.stamp rec) := by
  cases happends with
  | call hrecord =>
      rw [hcat] at hrecord
      have hvouches := Catalog.vouches_of_record
        (all_keyed_followAll (GoMap.all_empty _) log) hrecord
      exact hvouches
  | begin hphase => exact ⟨.nothing, rfl, trivial⟩
  | finish hphase => exact ⟨.nothing, rfl, trivial⟩

theorem Coordinator.Appends.catalog {c : Coordinator} {author : Author} {rec : Record}
    {log : List Record} {after : Wal} {lsn : UInt64} (happends : c.Appends author rec)
    (hcat : c.cat = (({} : Ledger).followAll log).catalog)
    (hadmits : ({} : Ledger).AdmitsAll (log ++ [c.log.stamp rec])) :
    (c.appended after rec lsn author).cat =
      (({} : Ledger).followAll (log ++ [c.log.stamp rec])).catalog := by
  obtain ⟨-, ⟨effect, heffect, -⟩, -⟩ := Ledger.admitsAll_append.mp hadmits
  have hfollow : ({} : Ledger).followAll (log ++ [c.log.stamp rec]) =
      (({} : Ledger).followAll log).apply effect := by
    rw [Ledger.followAll_append, Ledger.followAll_cons, Ledger.followAll_nil,
      Ledger.follow_of_effect heffect]
  rw [hfollow]
  cases happends with
  | call hrecord =>
      simp only [appended]
      rw [hcat]
      have heffectRec : rec.effect = some effect := heffect
      rw [hcat] at hrecord
      exact Catalog.after_eq heffectRec (Catalog.vouches_of_record
        (all_keyed_followAll (GoMap.all_empty _) log) hrecord)
  | begin hphase =>
      cases heffect
      simp only [appended, hphase]
      exact hcat
  | finish hphase =>
      cases heffect
      simp only [appended, hphase]
      exact hcat

namespace Node

def pending (s : Node) (author : Author) : Option Record :=
  match s.status with
  | .up c => (c.toAppend author).map c.log.stamp
  | _ => none

/-- The limits on a run: no record over the reader's limit, and each checkpoint file
gets a name of its own. -/
def Allows (s : Node) : NodeEvent → Prop
  | .append author => ∀ rec ∈ s.pending author, rec.Fits
  | .crashIn author _ => ∀ rec ∈ s.pending author, rec.Fits
  | .advance choices => choices.Fresh s.log
  | _ => True

theorem log_grows {s next : Node} {event : NodeEvent} (hstep : s.step event = some next) :
    s.log <+: next.log := by
  cases event with
  | append author =>
      simp only [step] at hstep
      split at hstep
      · split at hstep
        · contradiction
        · split at hstep
          · cases hstep
            exact List.prefix_append _ _
          · cases hstep
            exact List.prefix_rfl
      · contradiction
  | crashIn author cut =>
      simp only [step] at hstep
      split at hstep
      · split at hstep
        · contradiction
        · split at hstep
          · contradiction
          · cases hstep
            dsimp only
            split_ifs
            · exact List.prefix_append _ _
            · exact List.prefix_rfl
      · contradiction
  | crash =>
      cases hstep
      exact List.prefix_rfl
  | _ =>
      simp only [step] at hstep
      split at hstep
      · obtain ⟨_, _, rfl⟩ := Option.map_eq_some_iff.mp hstep
        exact List.prefix_rfl
      · contradiction

section Steps

variable {s next : Node} {author : Author}

theorem Sane.append (hsane : s.Sane) (hallows : s.Allows (.append author))
    (hcount : s.log.length + 2 < 2 ^ 64) (hstep : s.step (.append author) = some next) :
    next.Sane := by
  obtain ⟨status, log⟩ := s
  simp only [step] at hstep
  split at hstep
  · rename_i c
    split at hstep
    · contradiction
    · rename_i rec htoAppend
      have happends := Coordinator.appends_of_toAppend htoAppend
      obtain ⟨dropped, closed, active, hserving, hcat⟩ := hsane.status
      have hfits : (c.log.stamp rec).Fits :=
        hallows _ (by simp [pending, htoAppend])
      obtain ⟨after, closed', active', happend, hafter⟩ :=
        hserving.append happends hfits hcount
      simp only [happend, Option.some.injEq] at hstep
      subst hstep
      refine ⟨hsane.genuine.concat fun hadmits => happends.vouches (hcat hadmits),
        dropped, closed', active', hafter, fun hadmits => ?_⟩
      have hbefore := (Ledger.admitsAll_append.mp hadmits).1
      exact happends.catalog (hcat hbefore) hadmits
  · contradiction

theorem Sane.crashIn {cut : Nat} (hsane : s.Sane) (hallows : s.Allows (.crashIn author cut))
    (hcount : s.log.length + 2 < 2 ^ 64)
    (hstep : s.step (.crashIn author cut) = some next) : next.Sane := by
  obtain ⟨status, log⟩ := s
  simp only [step] at hstep
  split at hstep
  · rename_i c
    split at hstep
    · contradiction
    · rename_i rec htoAppend
      have happends := Coordinator.appends_of_toAppend htoAppend
      obtain ⟨dropped, closed, active, hserving, hcat⟩ := hsane.status
      have hfits : (c.log.stamp rec).Fits :=
        hallows _ (by simp [pending, htoAppend])
      split at hstep
      · contradiction
      · rename_i ready hprepare
        cases hstep
        obtain ⟨closed', active', tail, hdisk⟩ :=
          hserving.crashIn happends hfits hcount hprepare cut
        refine ⟨?_, .inr ⟨dropped, closed', active', tail, hdisk⟩⟩
        dsimp only
        split_ifs
        · exact hsane.genuine.concat fun hadmits => happends.vouches (hcat hadmits)
        · exact hsane.genuine
  · contradiction

theorem Sane.step {event : NodeEvent} (hsane : s.Sane) (hallows : s.Allows event)
    (hcount : s.log.length + 2 < 2 ^ 64) (hstep : s.step event = some next) :
    next.Sane := by
  cases event with
  | append author => exact hsane.append hallows hcount hstep
  | crashIn author cut => exact hsane.crashIn hallows hcount hstep
  | crash =>
      cases hstep
      exact ⟨hsane.genuine, hsane.status.crashed⟩
  | start config fuel =>
      obtain ⟨status, log⟩ := s
      simp only [Node.step] at hstep
      split at hstep
      · obtain ⟨started, hstart, rfl⟩ := Option.map_eq_some_iff.mp hstep
        exact ⟨hsane.genuine, start_sane hsane.status hstart⟩
      · contradiction
  | clean =>
      obtain ⟨status, log⟩ := s
      simp only [Node.step] at hstep
      split at hstep
      · obtain ⟨cleaned, hclean, rfl⟩ := Option.map_eq_some_iff.mp hstep
        exact ⟨hsane.genuine, clean_sane hsane.status hclean⟩
      · contradiction
  | advance choices =>
      obtain ⟨status, log⟩ := s
      simp only [Node.step] at hstep
      split at hstep
      · obtain ⟨c', hadvance, rfl⟩ := Option.map_eq_some_iff.mp hstep
        obtain ⟨dropped, closed, active, hserving, hcat⟩ := hsane.status
        obtain ⟨dropped', closed', hserving', hsame⟩ := hserving.advance hallows hadvance
        exact ⟨hsane.genuine, dropped', closed', active, hserving',
          fun hadmits => hsame.trans (hcat hadmits)⟩
      · contradiction
  | abandon =>
      obtain ⟨status, log⟩ := s
      simp only [Node.step] at hstep
      split at hstep
      · obtain ⟨c', habandon, rfl⟩ := Option.map_eq_some_iff.mp hstep
        obtain ⟨dropped, closed, active, hserving, hcat⟩ := hsane.status
        obtain ⟨hserving', hsame⟩ := hserving.abandon habandon
        exact ⟨hsane.genuine, dropped, closed, active, hserving',
          fun hadmits => hsame.trans (hcat hadmits)⟩
      · contradiction

end Steps

theorem sane_run {events : List NodeEvent} {s : Node}
    (hmeets : Meets Node.step Allows initial events)
    (hexec : exec Node.step initial events = some s)
    (hcount : s.log.length + 2 < 2 ^ 64) : s.Sane := by
  have hrun : s.log.length + 2 < 2 ^ 64 → s.Sane := by
    refine exec_invariant (P := fun s => s.log.length + 2 < 2 ^ 64 → s.Sane)
      ?_ (fun _ => sane_initial) hmeets hexec
    intro state event next hstate hallows hstep hnext
    have hmono := (log_grows hstep).length_le
    exact (hstate (by omega)).step hallows (by omega) hstep
  exact hrun hcount

theorem Sane.reread {s : Node} (hsane : s.Sane) (maxSegSize : Int) (mode : Mode) :
    ∃ records, Recovers records s.log ∧
      ∃ enough, ∀ fuel, enough ≤ fuel →
        Sessions.reread s.status.dir maxSegSize mode fuel = some records := by
  obtain ⟨w, dropped, closed, active, hopen, hdisk, hlive, hsegments⟩ :=
    hsane.status.crashed.opens maxSegSize mode
  obtain ⟨enough, henough⟩ := hdisk.readLoop
  refine ⟨_, hdisk.recovers, enough, fun fuel hfuel => ?_⟩
  simp only [Sessions.reread, hopen, Wal.readAll, openReader_of_names hsegments, hsegments,
    henough fuel hfuel, Wal.conclude, Wal.cleanUp,
    segmentsBefore_segmentNames _ hdisk.layout.active_lt]

/-- Checkpointing is invisible to recovery: whatever a run of coordinators has left on
disk, with checkpoints begun, abandoned, finished or cut off by a crash at any step,
replays to the same service as the log of all records ever appended. -/
theorem checkpoints_are_invisible {events : List NodeEvent} {s : Node}
    (hmeets : Meets Node.step Allows initial events)
    (hexec : exec Node.step initial events = some s)
    (hcount : s.log.length + 2 < 2 ^ 64) (hdisciplined : Disciplined s.log)
    {full : Replayed} (hreplay : Replayed.replay {} s.log = .ok full)
    (maxSegSize : Int) (mode : Mode) :
    ∃ records recovered,
      (∃ enough, ∀ fuel, enough ≤ fuel →
        Sessions.reread s.status.dir maxSegSize mode fuel = some records) ∧
      Replayed.replay {} records = .ok recovered ∧ full.SameService recovered := by
  have hsane := sane_run hmeets hexec hcount
  have hadmits := admitsAll_of_replay hsane.genuine hdisciplined hreplay
  obtain ⟨records, hrecovers, hreread⟩ := hsane.reread maxSegSize mode
  obtain ⟨hrecords, hsame⟩ := hrecovers hadmits
  obtain ⟨recovered, hrecovered, hright⟩ := Replayed.reflects_empty.replay hrecords
  obtain ⟨other, hother, hleft⟩ := Replayed.reflects_empty.replay hadmits
  rw [hreplay] at hother
  cases hother
  rw [hsame] at hright
  exact ⟨records, recovered, hreread, hrecovered, hleft.sameService hright⟩

/-! Runs can be evaluated. -/

instance (s : Node) (event : NodeEvent) : Decidable (s.Allows event) :=
  match event with
  | .append author => inferInstanceAs (Decidable (∀ rec ∈ s.pending author, rec.Fits))
  | .crashIn author _ => inferInstanceAs (Decidable (∀ rec ∈ s.pending author, rec.Fits))
  | .advance choices => inferInstanceAs (Decidable (choices.Fresh s.log))
  | .start _ _ => isTrue trivial
  | .clean => isTrue trivial
  | .abandon => isTrue trivial
  | .crash => isTrue trivial

def sortedChoices (id : GoString) : Choices where
  order := keyOrder
  id
  count := 1000

/-- A checkpoint beside an append, and a crash once it has deleted the first
segment. -/
def checkpointTrace : List NodeEvent :=
  [.start ⟨30, .sync, 1⟩ 10, .clean, .clean, .clean,
    .append (.caller (.createQueue (lit "orders"))), .append .checkpointer,
    .append (.caller (.createQueue (lit "mail")))] ++
    List.replicate 7 (.advance (sortedChoices (lit "1"))) ++
    [.append .checkpointer, .advance (sortedChoices (lit "2")),
      .advance (sortedChoices (lit "2")), .crash]

theorem checkpoint_trace_recovers :
    ∃ s full, exec Node.step initial checkpointTrace = some s ∧ s.log.length = 4 ∧
      s.status.dir.lookup (segmentFileName 1) = none ∧
      Replayed.replay {} s.log = .ok full ∧
      ∃ records recovered,
        (∃ enough, ∀ fuel, enough ≤ fuel →
          Sessions.reread s.status.dir 30 .sync fuel = some records) ∧
        Replayed.replay {} records = .ok recovered ∧ full.SameService recovered := by
  have hrun : (exec Node.step initial checkpointTrace).map
      (fun s => (s.log.length, s.status.dir.lookup (segmentFileName 1),
        decide (Disciplined s.log), (Replayed.replay {} s.log).toOption.isSome)) =
        some (4, none, true, true) := by
    decide +kernel
  have hmeets : Meets Node.step Allows initial checkpointTrace := by
    decide +kernel
  obtain ⟨s, hexec, hresult⟩ := Option.map_eq_some_iff.mp hrun
  simp only [Prod.mk.injEq, decide_eq_true_eq] at hresult
  obtain ⟨hlength, hgone, hdisciplined, hreplays⟩ := hresult
  cases hreplay : Replayed.replay {} s.log with
  | error err =>
      rw [hreplay] at hreplays
      contradiction
  | ok full =>
      exact ⟨s, full, hexec, hlength, hgone, hreplay,
        checkpoints_are_invisible hmeets hexec (by omega) hdisciplined hreplay 30 .sync⟩

end Node

end SimonMQ.Durable
