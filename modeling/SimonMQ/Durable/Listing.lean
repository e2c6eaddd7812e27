import SimonMQ.Durable.Live
import SimonMQ.Durable.Sessions

namespace SimonMQ.Durable

open SimonMQ.Go

/-! The segment list in memory against the segments on disk.  One name stands twice
in it once the first append of a process has rolled away from an empty segment, and
a reader that follows the list then never gets past that segment. -/

/-- A closed segment, which ends at `stop`, stands twice in the list. -/
def Doubled (segments : List GoString) (base : Nat) (closed : List (List Record))
    (stop : Nat) : Prop :=
  ∃ before records after, closed = before ++ records :: after ∧
    segments = (closedFiles base before).map Prod.fst ++
      segName (base + before.flatten.length) :: segName (base + before.flatten.length) ::
        segmentNames (base + before.flatten.length + records.length) after ∧
    stop = base + before.flatten.length + records.length

/-- What the list can be while a process runs. -/
inductive Listing (w : Wal) (base : Nat) (closed : List (List Record))
    (active : List Record) : Prop
  | plain (hsegments : w.segments = segmentNames base closed)
  | doubled (stop : Nat) (hnonempty : active ≠ [])
      (hdoubled : Doubled w.segments base closed stop)
  /-- the current segment stands twice, and has no room for another record -/
  | last (hnonempty : active ≠ [])
      (hsegments : w.segments =
        segmentNames base closed ++ [segName (base + closed.flatten.length)])
      (hfull : w.maxSegSize < w.currentSize)

theorem segmentNames_concat (base : Nat) (closed : List (List Record))
    (records : List Record) :
    segmentNames base (closed ++ [records]) =
      segmentNames base closed ++
        [segName (base + (closed.flatten ++ records).length)] := by
  simp only [segmentNames, closedFiles_append, closedFiles, List.map_append, List.map_cons,
    List.map_nil, List.flatten_append, List.flatten_cons, List.flatten_nil,
    List.append_nil]

theorem Doubled.concat {segments : List GoString} {base stop : Nat}
    {closed : List (List Record)} (hdoubled : Doubled segments base closed stop)
    (records : List Record) :
    Doubled (segments ++ [segName (base + (closed.flatten ++ records).length)]) base
      (closed ++ [records]) stop := by
  obtain ⟨before, doubled, after, rfl, rfl, rfl⟩ := hdoubled
  refine ⟨before, doubled, after ++ [records], by simp, ?_, rfl⟩
  rw [segmentNames_concat]
  simp only [List.append_assoc, List.cons_append, List.flatten_append, List.flatten_cons,
    List.length_append, Nat.add_assoc]

theorem Doubled.stop_le {segments : List GoString} {base stop : Nat}
    {closed : List (List Record)} (hdoubled : Doubled segments base closed stop) :
    stop ≤ base + closed.flatten.length := by
  obtain ⟨before, records, after, rfl, _, rfl⟩ := hdoubled
  rw [List.flatten_append, List.flatten_cons, List.length_append, List.length_append]
  omega

theorem doubled_of_last {segments : List GoString} {base : Nat}
    {closed : List (List Record)}
    (hsegments : segments =
      segmentNames base closed ++ [segName (base + closed.flatten.length)])
    (records : List Record) :
    Doubled (segments ++ [segName (base + (closed.flatten ++ records).length)]) base
      (closed ++ [records]) (base + (closed.flatten ++ records).length) := by
  refine ⟨closed, records, [], by simp, ?_, ?_⟩
  · rw [hsegments]
    simp only [segmentNames, closedFiles, List.append_assoc, List.cons_append,
      List.nil_append, List.map_nil, List.flatten_nil, List.length_nil, Nat.add_zero,
      List.length_append, Nat.add_assoc]
  · rw [List.length_append, Nat.add_assoc]

theorem live_of_empty (maxSegSize : Int) (mode : Mode) :
    ∃ w, Wal.openDir ∅ maxSegSize mode = .ok w ∧ Live w 1 [] [] ∧
      w.segments = segmentNames 1 [] := by
  obtain ⟨w, hopen, hready, hsegments, -⟩ := Sessions.openDir_empty maxSegSize mode
  have hzero : w.currentSize = 0 := by
    have hnames : Directory.namesWith ∅ walSuffix = [] := rfl
    rw [Wal.openDir, hnames] at hopen
    cases hopen
    rfl
  exact ⟨w, hopen, ⟨hready, Wal.openDir_usable hopen, hzero⟩, hsegments⟩

section Growth

variable {w after : Wal} {base : Nat} {closed closed' : List (List Record)}
  {active active' : List Record} {rec : Record}

theorem mustRoll_of_full (hfull : w.maxSegSize < w.currentSize) (rec : Record) :
    w.mustRoll rec := by
  unfold Wal.mustRoll
  omega

theorem Grows.lists {gone : List GoString}
    (hgrows : Grows w base closed active rec after closed' active')
    (hnonempty : active ≠ []) (hsegments : w.segments = gone ++ segmentNames base closed) :
    after.segments = gone ++ segmentNames base closed' := by
  cases hgrows with
  | stays hroom hsame => rw [hsame, hsegments]
  | rolls hmust _ hadded => rw [hadded, hsegments, segmentNames_concat, List.append_assoc]
  | doubles hmust hempty hadded => contradiction

theorem Grows.doubled {stop : Nat}
    (hgrows : Grows w base closed active rec after closed' active')
    (hnonempty : active ≠ []) (hdoubled : Doubled w.segments base closed stop) :
    Doubled after.segments base closed' stop := by
  cases hgrows with
  | stays hroom hsame =>
      rw [hsame]
      exact hdoubled
  | rolls hmust _ hadded =>
      rw [hadded]
      exact hdoubled.concat active
  | doubles hmust hempty hadded => contradiction

theorem Grows.listing (hgrows : Grows w base closed active rec after closed' active')
    (hlive : Live w base closed active) (hafter : Live after base closed' active')
    (hsize : after.maxSegSize = w.maxSegSize) (hlisting : Listing w base closed active) :
    Listing after base closed' active' := by
  have hnonempty' := hgrows.nonempty
  cases hlisting with
  | plain hsegments =>
      cases hgrows with
      | stays hroom hsame => exact .plain (hsame.trans hsegments)
      | rolls hmust hnonempty hadded =>
          refine .plain ?_
          rw [hadded, hsegments, segmentNames_concat]
      | doubles hmust hempty hadded =>
          refine .last hnonempty' (by rw [hadded, hsegments]) ?_
          have hzero : w.currentSize = 0 := by
            rw [hlive.size, hempty]
            rfl
          rw [hsize, hafter.size]
          simpa [Wal.mustRoll, hzero] using hmust
  | doubled stop hnonempty hdoubled =>
      exact .doubled stop hnonempty' (hgrows.doubled hnonempty hdoubled)
  | last hnonempty hsegments hfull =>
      cases hgrows with
      | stays hroom hsame => exact absurd (mustRoll_of_full hfull rec) hroom
      | rolls hmust _ hadded =>
          refine .doubled (base + (closed.flatten ++ active).length) hnonempty' ?_
          rw [hadded]
          exact doubled_of_last hsegments active
      | doubles hmust hempty hadded => contradiction

theorem Grows.settled (hgrows : Grows w base closed active rec after closed' active')
    (hnonempty : active ≠ []) (hlisting : Listing w base closed active) :
    after.segments = segmentNames base closed' ∨
      ∃ stop, stop ≤ base + (closed.flatten ++ active).length ∧
        Doubled after.segments base closed' stop := by
  cases hlisting with
  | plain hsegments =>
      have hnone : w.segments = [] ++ segmentNames base closed := hsegments
      exact .inl (hgrows.lists hnonempty hnone)
  | doubled stop _ hdoubled =>
      refine .inr ⟨stop, ?_, hgrows.doubled hnonempty hdoubled⟩
      have := hdoubled.stop_le
      rw [List.length_append]
      omega
  | last _ hsegments hfull =>
      cases hgrows with
      | stays hroom hsame => exact absurd (mustRoll_of_full hfull rec) hroom
      | rolls hmust _ hadded =>
          refine .inr ⟨_, Nat.le_refl _, ?_⟩
          rw [hadded]
          exact doubled_of_last hsegments active
      | doubles hmust hempty hadded => contradiction

end Growth

/-! Readers. -/

section Reading

variable {dir : Directory} {base : Nat} {closed : List (List Record)}
  {active : List Record} {tail : Bytes} {segments : List GoString} {reader : Reader}

theorem Layout.fetch_position {remaining : List Record}
    (hlayout : Layout dir base closed active tail)
    (hfits : ∀ rec ∈ closed.flatten ++ active, rec.Fits)
    (hsegments : segments = segmentNames base closed)
    (hposition : Position base closed active reader remaining) (hremain : remaining ≠ []) :
    (∃ rec rest next, remaining = rec :: rest ∧
      reader.fetch dir segments = .record rec next ∧
      Position base closed active next rest) ∨
    ∃ next, reader.fetch dir segments = .opened next ∧
      Position base closed active next remaining := by
  subst hsegments
  cases hposition with
  | inClosed before after done todo hclosed =>
      subst hclosed
      cases todo with
      | nil =>
          rw [List.append_nil] at hlayout ⊢
          refine .inr ⟨_, hlayout.fetch_closed_end hlayout.segmentAfter_closed ?_,
            Position.next before after done⟩
          exact hlayout.lookup_position (Position.next before after done)
      | cons rec todo =>
          refine .inl ⟨rec, _, _, rfl,
            hlayout.fetch_closed_record (hfits rec (by simp)) _, ?_⟩
          have hsplit : done ++ rec :: todo = done ++ [rec] ++ todo := by simp
          rw [hsplit]
          exact .inClosed before after (done ++ [rec]) todo rfl
  | inActive done _ hactive =>
      subst hactive
      cases remaining with
      | nil => contradiction
      | cons rec rest =>
          refine .inl ⟨rec, rest, _, rfl,
            hlayout.fetch_active_record (hfits rec (by simp)) _, ?_⟩
          exact .inActive (done ++ [rec]) rest (by simp)

/-- The reader is in a segment not later than the doubled one. -/
def Looping (segments : List GoString) (base : Nat) (closed : List (List Record))
    (lsn : Nat) (reader : Reader) : Prop :=
  ∃ before records after, closed = before ++ records :: after ∧
    segments = (closedFiles base before).map Prod.fst ++
      segName (base + before.flatten.length) :: segName (base + before.flatten.length) ::
        segmentNames (base + before.flatten.length + records.length) after ∧
    base + before.flatten.length + records.length ≤ lsn ∧
    ∃ earlier done todo later, closed = earlier ++ (done ++ todo) :: later ∧
      earlier.length ≤ before.length ∧
      reader = ⟨segName (base + earlier.flatten.length), (frames done).length⟩

theorem looping_start {stop lsn : Nat} (hdoubled : Doubled segments base closed stop)
    (hstop : stop ≤ lsn) : Looping segments base closed lsn ⟨segName base, 0⟩ := by
  obtain ⟨before, records, after, hclosed, hsegments, rfl⟩ := hdoubled
  cases before with
  | nil =>
      exact ⟨[], records, after, hclosed, hsegments, hstop, [], [], records, after,
        hclosed, Nat.le_refl _, rfl⟩
  | cons first before =>
      exact ⟨first :: before, records, after, hclosed, hsegments, hstop, [], [], first,
        before ++ records :: after, hclosed, Nat.zero_le _, rfl⟩

theorem Grows.looping {w after : Wal} {closed' : List (List Record)}
    {active' : List Record} {rec : Record} {lsn : Nat}
    (hgrows : Grows w base closed active rec after closed' active')
    (hnonempty : active ≠ []) (hlooping : Looping w.segments base closed lsn reader) :
    Looping after.segments base closed' lsn reader := by
  obtain ⟨before, records, behind, hclosed, hsegments, hstop, earlier, done, todo, later,
    hplace, hle, hreader⟩ := hlooping
  cases hgrows with
  | stays hroom hsame =>
      exact ⟨before, records, behind, hclosed, hsame.trans hsegments, hstop, earlier, done,
        todo, later, hplace, hle, hreader⟩
  | rolls hmust _ hadded =>
      refine ⟨before, records, behind ++ [active], by simp [hclosed], ?_, hstop, earlier,
        done, todo, later ++ [active], by simp [hplace], hle, hreader⟩
      rw [hadded, hsegments, segmentNames_concat, hclosed]
      simp only [List.append_assoc, List.cons_append, List.flatten_append,
        List.flatten_cons, List.length_append, Nat.add_assoc]
  | doubles hmust hempty hadded => contradiction

theorem Looping.fetch {lsn : Nat} (hlooping : Looping segments base closed lsn reader)
    (hlayout : Layout dir base closed active tail)
    (hfits : ∀ rec ∈ closed.flatten, rec.Fits) :
    (∃ rec next, reader.fetch dir segments = .record rec next ∧
      rec ∈ closed.flatten ∧ rec.lsn.toNat < lsn ∧
      Looping segments base closed lsn next) ∨
    ∃ next, reader.fetch dir segments = .opened next ∧
      Looping segments base closed lsn next := by
  obtain ⟨before, records, after, hclosed, hsegments, hstop, earlier, done, todo, later,
    hplace, hle, rfl⟩ := hlooping
  cases todo with
  | cons rec todo =>
      have hmem : rec ∈ closed.flatten := by simp [hplace]
      have hlsn : rec.lsn.toNat < lsn := by
        have hreader : earlier ++ [done ++ rec :: todo] <+: closed :=
          ⟨later, by simp [hplace]⟩
        have hdoubled : before ++ [records] <+: closed := ⟨after, by simp [hclosed]⟩
        obtain ⟨rest, hrest⟩ := List.prefix_of_prefix_length_le hreader hdoubled
          (by simpa using hle)
        have hnumbered := hlayout.numbered
        obtain ⟨behind, hbehind⟩ := hreader
        rw [← hbehind, List.flatten_append, List.append_assoc, numbered_append] at hnumbered
        have hbounds := (hnumbered.1.bounds (by simp : rec ∈ _)).2
        have hlengths := congrArg (fun segments => segments.flatten.length) hrest
        simp only [List.flatten_append, List.length_append, List.flatten_cons,
          List.flatten_nil, List.append_nil] at hlengths hbounds
        omega
      subst hplace
      refine .inl ⟨rec, _, hlayout.fetch_closed_record (hfits rec hmem) _, hmem, hlsn, ?_⟩
      exact ⟨before, records, after, hclosed, hsegments, hstop, earlier, done ++ [rec], todo,
        later, by simp, hle, rfl⟩
  | nil =>
      rw [List.append_nil] at hplace
      right
      have hnames : ∀ name ∈ (closedFiles base earlier).map Prod.fst,
          name ≠ segName (base + earlier.flatten.length) := by
        intro name hname heq
        have hpairwise := hlayout.names_pairwise
        rw [hplace, segmentNames_split] at hpairwise
        have hlt := (List.pairwise_append.mp hpairwise).2.2 name hname _ List.mem_cons_self
        rw [heq] at hlt
        exact List.lt_irrefl _ hlt
      have habsent : segName (base + earlier.flatten.length) ∉
          (closedFiles base earlier).map Prod.fst :=
        fun hmem => hnames _ hmem rfl
      rcases Nat.lt_or_ge earlier.length before.length with hbefore | hlast
      · -- There is another segment between the reader and the doubled one, or that.
        have hsplit : earlier ++ [done] <+: before := by
          have hreader : earlier ++ [done] <+: closed := ⟨later, by simp [hplace]⟩
          have hfront : before <+: closed := ⟨_, hclosed.symm⟩
          refine List.prefix_of_prefix_length_le hreader hfront ?_
          rw [List.length_append]
          exact hbefore
        obtain ⟨middle, rfl⟩ := hsplit
        have hlater : later = middle ++ records :: after := by
          have heq := hplace.symm.trans hclosed
          simpa using heq
        subst hlater
        have hnext : segmentAfter (segName (base + earlier.flatten.length)) segments =
            some (segName (base + earlier.flatten.length + done.length)) := by
          rw [hsegments]
          cases middle with
          | nil =>
              simpa [closedFiles_append, closedFiles, Nat.add_assoc] using
                segmentAfter_mid habsent
          | cons following middle =>
              simpa [closedFiles_append, closedFiles, Nat.add_assoc] using
                segmentAfter_mid habsent
        subst hplace
        refine ⟨_, hlayout.fetch_closed_end hnext
          (hlayout.lookup_position (Position.next earlier _ done)), ?_⟩
        refine ⟨earlier ++ [done] ++ middle, records, after, hclosed, hsegments, hstop,
          earlier ++ [done], [], ?_⟩
        cases middle with
        | nil =>
            exact ⟨records, after, by simp, by simp, by simp [Nat.add_assoc]⟩
        | cons following middle =>
            exact ⟨following, middle ++ records :: after, by simp, by simp,
              by simp [Nat.add_assoc]⟩
      · obtain ⟨rfl, hdone⟩ := List.append_inj (hplace.symm.trans hclosed)
          (Nat.le_antisymm hle hlast)
        obtain ⟨rfl, rfl⟩ := List.cons.inj hdone
        have hnext : segmentAfter (segName (base + earlier.flatten.length)) segments =
            some (segName (base + earlier.flatten.length)) := by
          rw [hsegments]
          exact segmentAfter_mid habsent
        subst hplace
        refine ⟨_, hlayout.fetch_closed_end hnext ⟨_, hlayout.lookup_closed⟩, ?_⟩
        exact ⟨earlier, done, later, rfl, hsegments, hstop, earlier, [], done, later, rfl,
          Nat.le_refl _, rfl⟩

end Reading

end SimonMQ.Durable
