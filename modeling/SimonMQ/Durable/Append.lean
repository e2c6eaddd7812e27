import SimonMQ.Durable.Layout

namespace SimonMQ.Durable

open SimonMQ.Go

/-! The writer between two appends, and what the steps of one append leave in the
directory. -/

/-- The writer stands at the end of these records, in the active segment. -/
structure Ready (w : Wal) (base : Nat) (closed : List (List Record))
    (active : List Record) : Prop where
  layout : Layout w.dir base closed active []
  file : w.file = segName (base + closed.flatten.length)
  nextLSN : w.nextLSN = UInt64.ofNat (base + (closed.flatten ++ active).length)

namespace Ready

variable {w : Wal} {base : Nat} {closed : List (List Record)} {active : List Record}

theorem toNat_nextLSN (hready : Ready w base closed active) :
    w.nextLSN.toNat = base + (closed.flatten ++ active).length := by
  rw [hready.nextLSN, toNat_ofNat_lsn hready.layout.bound]

theorem ofOpen {dir : Directory} {tail : Bytes} {maxSegSize : Int} {mode : Mode}
    (hlayout : Layout dir base closed active tail) (hfits : ∀ rec ∈ active, rec.Fits)
    (htorn : Torn tail) (hopen : Wal.openDir dir maxSegSize mode = .ok w) :
    Ready w base closed active := by
  rw [hlayout.openDir hfits htorn, Except.ok.injEq] at hopen
  subst hopen
  exact ⟨hlayout.dropTail, rfl, rfl⟩

theorem createSegment (hready : Ready w base closed active) :
    ∃ closed' active', Ready w.createSegment base closed' active' ∧
      closed'.flatten ++ active' = closed.flatten ++ active := by
  obtain ⟨closed', active', hlayout, hrecords, hfirst, hempty⟩ := hready.layout.roll
  have hname : segmentFileName w.nextLSN =
      segName (base + (closed.flatten ++ active).length) := by
    rw [← segName_toNat, hready.toNat_nextLSN]
  refine ⟨closed', active', ⟨?_, ?_, ?_⟩, hrecords⟩
  · simpa only [Wal.createSegment, hname] using hlayout
  · simp only [Wal.createSegment, hname, hfirst]
  · simp only [Wal.createSegment, hrecords, hready.nextLSN]

theorem prepare {rec : Record} {faults : Wal.AppendFaults} {ready : Wal}
    (hready : Ready w base closed active) (hprepare : w.prepare rec faults = .ok ready) :
    ∃ closed' active', Ready ready base closed' active' ∧
      closed'.flatten ++ active' = closed.flatten ++ active := by
  unfold Wal.prepare Wal.rollSegment at hprepare
  split_ifs at hprepare
  · cases hprepare
    exact hready.createSegment
  · cases hprepare
    exact ⟨closed, active, hready, rfl⟩

theorem stamp_lsn (hready : Ready w base closed active) (rec : Record) :
    (w.stamp rec).lsn.toNat = base + (closed.flatten ++ active).length :=
  hready.toNat_nextLSN

theorem write_part (hready : Ready w base closed active) (bytes : Bytes) :
    Layout (w.write bytes).dir base closed active bytes := by
  have := hready.layout.extendTail bytes
  rw [List.nil_append, ← hready.file] at this
  exact this

theorem write_frame (hready : Ready w base closed active) (rec : Record)
    (hbound : base + (closed.flatten ++ active).length + 1 < 2 ^ 64) :
    Layout (w.write (w.stamp rec).encode).dir base closed
      (active ++ [w.stamp rec]) [] :=
  (hready.write_part _).closeFrame (hready.stamp_lsn rec) hbound

theorem commit (hready : Ready w base closed active) (rec : Record)
    (hbound : base + (closed.flatten ++ active).length + 1 < 2 ^ 64) (size : Nat) :
    Ready ((w.write (w.stamp rec).encode).commit size) base closed
      (active ++ [w.stamp rec]) where
  layout := hready.write_frame rec hbound
  file := hready.file
  nextLSN := by
    apply UInt64.toNat_inj.mp
    have hone : (1 : UInt64).toNat = 1 := rfl
    have hlength : (closed.flatten ++ (active ++ [w.stamp rec])).length =
        (closed.flatten ++ active).length + 1 := by
      simp only [List.length_append, List.length_singleton, Nat.add_assoc]
    have hnext : ((w.write (w.stamp rec).encode).commit size).nextLSN = w.nextLSN + 1 :=
      rfl
    rw [hnext, UInt64.toNat_add, hready.toNat_nextLSN, hone, hlength,
      toNat_ofNat_lsn (by omega)]
    omega

end Ready

theorem Wal.prepare_nextLSN {w ready : Wal} {rec : Record} {faults : AppendFaults}
    (hprepare : w.prepare rec faults = .ok ready) : ready.nextLSN = w.nextLSN := by
  unfold prepare rollSegment at hprepare
  split_ifs at hprepare <;> cases hprepare <;> rfl

theorem Wal.prepare_stamp {w ready : Wal} {rec : Record} {faults : AppendFaults}
    (hprepare : w.prepare rec faults = .ok ready) : ready.stamp rec = w.stamp rec := by
  rw [stamp, stamp, prepare_nextLSN hprepare]

namespace Wal

/-- The number of the frame's bytes that an append brings to the segment. -/
def reached (w : Wal) (faults : AppendFaults) (rec : Record) : Nat :=
  match w.prepare rec faults with
  | .error _ => 0
  | .ok ready =>
      if !ready.fileOpen then 0
      else
        match faults.written with
        | some count => min count (w.stamp rec).encode.length
        | none => (w.stamp rec).encode.length

def rolls (w : Wal) (faults : AppendFaults) (rec : Record) : Prop :=
  w.mustRoll rec ∧ w.fileOpen = true ∧ faults.closeOk = true ∧ faults.createOk = true

instance (w : Wal) (faults : AppendFaults) (rec : Record) :
    Decidable (w.rolls faults rec) :=
  inferInstanceAs (Decidable (_ ∧ _))

/-- Everything an append can come to: it gets no byte to the segment and creates
none; it writes some part of the frame, or all of it, and fails; or it succeeds. -/
inductive Appended (w : Wal) (faults : AppendFaults) (rec : Record) :
    Wal × Except AppendError UInt64 → Prop
  | untouched {after : Wal} (err : AppendError) (hdir : after.dir = w.dir)
      (hfile : after.file = w.file) (hnext : after.nextLSN = w.nextLSN)
      (hreached : w.reached faults rec = 0) :
      Appended w faults rec (after, .error err)
  | failed {ready : Wal} (err : AppendError) (count : Nat)
      (hprepare : w.prepare rec faults = .ok ready)
      (hreached : w.reached faults rec = min count (w.stamp rec).encode.length) :
      Appended w faults rec
        (ready.write ((w.stamp rec).encode.take count), .error err)
  | succeeded {ready : Wal} (hprepare : w.prepare rec faults = .ok ready)
      (hreached : w.reached faults rec = (w.stamp rec).encode.length) :
      Appended w faults rec
        ((ready.write (w.stamp rec).encode).commit (w.stamp rec).encode.length,
          .ok w.nextLSN)

theorem prepare_error {w stuck : Wal} {rec : Record} {faults : AppendFaults}
    {err : AppendError} (hprepare : w.prepare rec faults = .error (stuck, err)) :
    stuck.dir = w.dir ∧ stuck.file = w.file ∧ stuck.nextLSN = w.nextLSN := by
  unfold prepare rollSegment at hprepare
  split_ifs at hprepare <;> cases hprepare <;> exact ⟨rfl, rfl, rfl⟩

theorem appended (w : Wal) (faults : AppendFaults) (rec : Record) :
    Appended w faults rec (w.appendWith faults rec) := by
  unfold appendWith
  cases hprepare : w.prepare rec faults with
  | error failure =>
      obtain ⟨stuck, err⟩ := failure
      obtain ⟨hdir, hfile, hnext⟩ := prepare_error hprepare
      exact .untouched err hdir hfile hnext (by simp only [reached, hprepare])
  | ok ready =>
      cases hopen : ready.fileOpen with
      | false =>
          have hready : ready = w := by
            unfold prepare rollSegment at hprepare
            split_ifs at hprepare
            · cases hprepare
              simp [createSegment] at hopen
            · cases hprepare
              rfl
          subst hready
          simp only [hopen, Bool.not_false, if_true]
          exact .untouched _ rfl rfl rfl (by simp [reached, hprepare, hopen])
      | true =>
          simp only [hopen, Bool.not_true, Bool.false_eq_true, if_false]
          cases hwritten : faults.written with
          | some count =>
              exact .failed _ count hprepare (by simp [reached, hprepare, hopen, hwritten])
          | none =>
              have hreached : w.reached faults rec = (w.stamp rec).encode.length := by
                simp [reached, hprepare, hopen, hwritten]
              dsimp only
              split_ifs with hsync
              · have hfailed := Appended.failed .syncFailed (w.stamp rec).encode.length
                  hprepare (by rw [hreached, Nat.min_self])
                rwa [List.take_length] at hfailed
              · exact .succeeded hprepare hreached

theorem prepare_of_not_rolls {w ready : Wal} {rec : Record} {faults : AppendFaults}
    (hrolls : ¬ w.rolls faults rec) (hprepare : w.prepare rec faults = .ok ready) :
    ready = w := by
  unfold prepare rollSegment at hprepare
  split_ifs at hprepare with hmust hclose hcreate
  · simp only [Bool.or_eq_true, Bool.not_eq_true', not_or, Bool.not_eq_false]
      at hclose hcreate
    exact absurd ⟨hmust, hclose.1, hclose.2, hcreate⟩ hrolls
  · cases hprepare
    rfl

theorem openDir_usable {dir : Directory} {maxSegSize : Int} {mode : Mode} {w : Wal}
    (hopen : openDir dir maxSegSize mode = .ok w) : w.fileOpen = true := by
  unfold openDir recover at hopen
  split at hopen
  · cases hopen
    rfl
  · split at hopen
    · contradiction
    · split at hopen
      · cases hopen
        rfl
      · contradiction

theorem append_usable {w : Wal} (husable : w.fileOpen = true) (rec : Record) :
    (w.append rec).1.fileOpen = true ∧ (w.append rec).2 = .ok w.nextLSN := by
  obtain ⟨ready, hprepare, hopen⟩ :
      ∃ ready, w.prepare rec {} = .ok ready ∧ ready.fileOpen = true := by
    by_cases hmust : w.mustRoll rec
    · exact ⟨w.createSegment, by simp [prepare, rollSegment, hmust, husable], rfl⟩
    · exact ⟨w, by simp [prepare, hmust], husable⟩
  simp [append, appendWith, hprepare, hopen, commit, write]

end Wal

end SimonMQ.Durable
