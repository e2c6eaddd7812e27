import SimonMQ.Durable.Append
import SimonMQ.Durable.Follow

namespace SimonMQ.Durable

open SimonMQ.Go

/-! A writer on a file system that does not fail, and what an append makes of its
segment list.  A roll always adds a name to the list, also when the current segment
is still empty and the name is the one the list already ends with. -/

/-- A usable writer at the end of the records, with the size of its segment. -/
structure Live (w : Wal) (base : Nat) (closed : List (List Record))
    (active : List Record) : Prop where
  ready : Ready w base closed active
  usable : w.fileOpen = true
  size : w.currentSize = (frames active).length

/-- The three things an append can do to the segments. -/
inductive Grows (w : Wal) (base : Nat) (closed : List (List Record))
    (active : List Record) (rec : Record) (after : Wal) :
    List (List Record) → List Record → Prop
  | stays (hroom : ¬ w.mustRoll rec) (hsegments : after.segments = w.segments) :
      Grows w base closed active rec after closed (active ++ [w.stamp rec])
  | rolls (hmust : w.mustRoll rec) (hnonempty : active ≠ [])
      (hsegments : after.segments =
        w.segments ++ [segName (base + (closed.flatten ++ active).length)]) :
      Grows w base closed active rec after (closed ++ [active]) [w.stamp rec]
  | doubles (hmust : w.mustRoll rec) (hempty : active = [])
      (hsegments : after.segments = w.segments ++ [segName (base + closed.flatten.length)]) :
      Grows w base closed active rec after closed [w.stamp rec]

theorem Wal.append_eq {w : Wal} (husable : w.fileOpen = true) (rec : Record) :
    w.append rec =
      (((if w.mustRoll rec then w.createSegment else w).write
          (w.stamp rec).encode).commit (w.stamp rec).encode.length, .ok w.nextLSN) := by
  by_cases hmust : w.mustRoll rec
  · simp [append, appendWith, prepare, rollSegment, hmust, husable, createSegment]
  · simp [append, appendWith, prepare, hmust, husable]

theorem ne_of_hasSuffix {name other suffix : GoString} (hname : ¬ hasSuffix name suffix)
    (hother : hasSuffix other suffix) : name ≠ other := by
  rintro rfl
  exact hname hother

theorem Wal.lookup_append {w : Wal} {name : GoString}
    (hfile : hasSuffix w.file walSuffix) (hname : ¬ hasSuffix name walSuffix)
    (husable : w.fileOpen = true) (rec : Record) :
    (w.append rec).1.dir.lookup name = w.dir.lookup name := by
  have hne : ∀ lsn, name ≠ segmentFileName lsn :=
    fun lsn => ne_of_hasSuffix hname (hasSuffix_segmentFileName lsn)
  have hother : name ≠ w.file := ne_of_hasSuffix hname hfile
  rw [append_eq husable]
  by_cases hmust : w.mustRoll rec
  · simp only [hmust, if_true, commit, write, createSegment]
    rw [Directory.lookup_appendTo, if_neg (hne w.nextLSN), Directory.lookup_openCreate,
      if_neg (hne w.nextLSN)]
  · simp only [hmust, if_false, commit, write]
    rw [Directory.lookup_appendTo, if_neg hother]

theorem Wal.lookup_prepare {w ready : Wal} {rec : Record} {name : GoString}
    (hfile : hasSuffix w.file walSuffix) (hname : ¬ hasSuffix name walSuffix)
    (hprepare : w.prepare rec {} = .ok ready) (bytes : Bytes) :
    (ready.write bytes).dir.lookup name = w.dir.lookup name := by
  have hne : ∀ lsn, name ≠ segmentFileName lsn :=
    fun lsn => ne_of_hasSuffix hname (hasSuffix_segmentFileName lsn)
  have hother : name ≠ w.file := ne_of_hasSuffix hname hfile
  unfold prepare rollSegment at hprepare
  split_ifs at hprepare
  · cases hprepare
    simp only [write, createSegment]
    rw [Directory.lookup_appendTo, if_neg (hne w.nextLSN), Directory.lookup_openCreate,
      if_neg (hne w.nextLSN)]
  · cases hprepare
    simp only [write]
    rw [Directory.lookup_appendTo, if_neg hother]

namespace Live

variable {w : Wal} {base : Nat} {closed : List (List Record)} {active : List Record}

theorem file_suffix (hlive : Live w base closed active) : hasSuffix w.file walSuffix := by
  rw [hlive.ready.file]
  exact hasSuffix_segName _

theorem createSegment_name (hlive : Live w base closed active) :
    segmentFileName w.nextLSN = segName (base + (closed.flatten ++ active).length) := by
  rw [← segName_toNat, hlive.ready.toNat_nextLSN]

theorem commit (hlive : Live w base closed active) (rec : Record)
    (hbound : base + (closed.flatten ++ active).length + 1 < 2 ^ 64) :
    Live ((w.write (w.stamp rec).encode).commit (w.stamp rec).encode.length) base closed
      (active ++ [w.stamp rec]) where
  ready := hlive.ready.commit rec hbound _
  usable := hlive.usable
  size := by
    simp only [Wal.commit, Wal.write, hlive.size, frames_append, frames_cons, frames_nil,
      List.append_nil, List.length_append]

theorem createSegment_empty (hlive : Live w base closed []) :
    Live w.createSegment base closed [] := by
  have hname := hlive.createSegment_name
  rw [List.append_nil] at hname
  refine ⟨⟨?_, ?_, ?_⟩, rfl, rfl⟩
  · simpa only [Wal.createSegment, hname] using hlive.ready.layout.rollEmpty
  · simp only [Wal.createSegment, hname]
  · simp only [Wal.createSegment, hlive.ready.nextLSN]

theorem createSegment_full (hlive : Live w base closed active) (hnonempty : active ≠ []) :
    Live w.createSegment base (closed ++ [active]) [] := by
  have hname := hlive.createSegment_name
  have hflatten : (closed ++ [active]).flatten = closed.flatten ++ active := by simp
  refine ⟨⟨?_, ?_, ?_⟩, rfl, rfl⟩
  · simpa only [Wal.createSegment, hname] using hlive.ready.layout.rollFull hnonempty
  · simp only [Wal.createSegment, hname, hflatten]
  · simp only [Wal.createSegment, hlive.ready.nextLSN, hflatten, List.append_nil]

theorem append (hlive : Live w base closed active) (rec : Record)
    (hbound : base + (closed.flatten ++ active).length + 1 < 2 ^ 64) :
    ∃ after closed' active', w.append rec = (after, .ok w.nextLSN) ∧
      Grows w base closed active rec after closed' active' ∧
      Live after base closed' active' ∧ after.maxSegSize = w.maxSegSize := by
  rw [Wal.append_eq hlive.usable]
  by_cases hmust : w.mustRoll rec
  · simp only [hmust, if_true]
    by_cases hempty : active = []
    · subst hempty
      refine ⟨_, closed, [w.stamp rec], rfl, .doubles hmust rfl ?_, ?_, rfl⟩
      · have hname := hlive.createSegment_name
        rw [List.append_nil] at hname
        simp only [Wal.commit, Wal.write, Wal.createSegment, hname]
      · exact hlive.createSegment_empty.commit rec hbound
    · refine ⟨_, closed ++ [active], [w.stamp rec], rfl, .rolls hmust hempty ?_, ?_, rfl⟩
      · simp only [Wal.commit, Wal.write, Wal.createSegment, hlive.createSegment_name]
      · refine (hlive.createSegment_full hempty).commit rec ?_
        simpa using hbound
  · simp only [hmust, if_false]
    exact ⟨_, closed, _, rfl, .stays hmust rfl, hlive.commit rec hbound, rfl⟩

theorem ofOpen {dir : Directory} {tail : Bytes} {maxSegSize : Int} {mode : Mode}
    (hlayout : Layout dir base closed active tail) (hfits : ∀ rec ∈ active, rec.Fits)
    (htorn : Torn tail) (hopen : Wal.openDir dir maxSegSize mode = .ok w) :
    Live w base closed active := by
  refine ⟨.ofOpen hlayout hfits htorn hopen, Wal.openDir_usable hopen, ?_⟩
  rw [hlayout.openDir hfits htorn, Except.ok.injEq] at hopen
  rw [← hopen]

end Live

theorem Grows.records {w after : Wal} {base : Nat} {closed closed' : List (List Record)}
    {active active' : List Record} {rec : Record}
    (hgrows : Grows w base closed active rec after closed' active') :
    closed'.flatten ++ active' = closed.flatten ++ active ++ [w.stamp rec] := by
  cases hgrows with
  | stays hroom hsegments => rw [List.append_assoc]
  | rolls hmust hnonempty hsegments => simp
  | doubles hmust hempty hsegments => simp [hempty]

theorem Grows.nonempty {w after : Wal} {base : Nat} {closed closed' : List (List Record)}
    {active active' : List Record} {rec : Record}
    (hgrows : Grows w base closed active rec after closed' active') : active' ≠ [] := by
  cases hgrows <;> simp

theorem Grows.position {w after : Wal} {base : Nat} {closed closed' : List (List Record)}
    {active active' : List Record} {rec : Record} {reader : Reader}
    {remaining : List Record} (hgrows : Grows w base closed active rec after closed' active')
    (hposition : Position base closed active reader remaining) :
    Position base closed' active' reader (remaining ++ [w.stamp rec]) := by
  cases hgrows with
  | stays hroom hsegments =>
      cases hposition with
      | inClosed before after done todo hclosed =>
          subst hclosed
          rw [List.append_assoc, List.append_assoc]
          exact .inClosed before after done todo rfl
      | inActive done _ hactive =>
          subst hactive
          exact .inActive done (remaining ++ [w.stamp rec]) (by rw [List.append_assoc])
  | rolls hmust hnonempty hsegments =>
      cases hposition with
      | inClosed before after done todo hclosed =>
          subst hclosed
          have hplace : Position base (before ++ (done ++ todo) :: (after ++ [active]))
              [w.stamp rec] ⟨segName (base + before.flatten.length), (frames done).length⟩
              (todo ++ ((after ++ [active]).flatten ++ [w.stamp rec])) :=
            .inClosed before (after ++ [active]) done todo rfl
          simpa using hplace
      | inActive done _ hactive =>
          subst hactive
          have hplace : Position base (closed ++ (done ++ remaining) :: []) [w.stamp rec]
              ⟨segName (base + closed.flatten.length), (frames done).length⟩
              (remaining ++ (([] : List (List Record)).flatten ++ [w.stamp rec])) :=
            .inClosed closed [] done remaining rfl
          simpa using hplace
  | doubles hmust hempty hsegments =>
      subst hempty
      cases hposition with
      | inClosed before after done todo hclosed =>
          subst hclosed
          rw [List.append_nil, List.append_assoc]
          exact .inClosed before after done todo rfl
      | inActive done _ hactive =>
          rw [List.nil_eq, List.append_eq_nil_iff] at hactive
          obtain ⟨rfl, rfl⟩ := hactive
          exact .inActive [] [w.stamp rec] rfl

end SimonMQ.Durable
