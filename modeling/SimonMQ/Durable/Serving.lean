import SimonMQ.Durable.Checkpoint

namespace SimonMQ.Durable

open SimonMQ.Go

/-! The appends of a coordinator in service: those of its callers, and the two of a
checkpoint. -/

theorem Catalog.ordinary_of_record {cat : Catalog} {request : Request} {rec : Record}
    (hrecord : cat.record request = .ok rec) :
    rec.opType ≠ .beginCheckpoint ∧ rec.opType ≠ .endCheckpoint := by
  cases request with
  | createQueue queueName =>
      cases hrecord
      exact ⟨by simp, by simp⟩
  | deleteQueue queueName =>
      obtain ⟨_, rfl⟩ := require_eq_ok hrecord
      exact ⟨by simp, by simp⟩
  | updateSubPolicy queueName policy =>
      obtain ⟨_, rfl⟩ := require_eq_ok hrecord
      exact ⟨by simp, by simp⟩
  | deleteSubPolicy queueName subName =>
      obtain ⟨_, rfl⟩ := require_eq_ok hrecord
      exact ⟨by simp, by simp⟩
  | enqueue queueName msgId content =>
      simp only [Catalog.record] at hrecord
      split at hrecord
      · contradiction
      · cases hrecord
        exact ⟨by simp, by simp⟩
  | ack queueName msgId subName =>
      cases hrecord
      exact ⟨by simp, by simp⟩

theorem Catalog.lsn_of_record {cat : Catalog} {request : Request} {rec : Record}
    (hrecord : cat.record request = .ok rec) : rec.lsn = 0 := by
  cases request with
  | createQueue | ack =>
      cases hrecord
      rfl
  | deleteQueue | updateSubPolicy | deleteSubPolicy =>
      obtain ⟨_, rfl⟩ := require_eq_ok hrecord
      rfl
  | enqueue queueName msgId content =>
      simp only [Catalog.record] at hrecord
      split at hrecord
      · contradiction
      · cases hrecord
        rfl

/-- The record that an author is about to append, by what the coordinator is at. -/
inductive Coordinator.Appends (c : Coordinator) : Author → Record → Prop
  | call {request : Request} {rec : Record} (hrecord : c.cat.record request = .ok rec) :
      Appends c (.caller request) rec
  | begin (hphase : c.checkpoint = .spawned) : Appends c .checkpointer beginRecord
  | finish {lsn : UInt64} {name checksum : GoString}
      (hphase : c.checkpoint = .installed lsn name checksum) :
      Appends c .checkpointer (endRecord name checksum)

theorem Coordinator.appends_of_toAppend {c : Coordinator} {author : Author} {rec : Record}
    (happend : c.toAppend author = some rec) : c.Appends author rec := by
  cases author with
  | caller request =>
      simp only [toAppend] at happend
      cases hrecord : c.cat.record request with
      | error err => simp [hrecord, Except.toOption] at happend
      | ok found =>
          rw [hrecord] at happend
          cases happend
          exact .call hrecord
  | checkpointer =>
      simp only [toAppend] at happend
      split at happend
      · rename_i hphase
        cases happend
        exact .begin hphase
      · rename_i lsn name checksum hphase
        cases happend
        exact .finish hphase
      · contradiction

/-! What an `END` record says survives the encoding. -/

theorem hex32_ascii (value : UInt32) : ∀ byte ∈ hex32 value, byte < 0x80 := by
  have hdigit : ∀ digit < 16, Json.hexDigit digit < 0x80 := by decide
  intro byte hbyte
  obtain ⟨place, _, rfl⟩ := List.mem_map.mp hbyte
  exact hdigit _ (Nat.mod_lt _ (by decide))

theorem endCkpt_endRecord {name : GoString} (hname : Utf8.Valid name) (content : Bytes) :
    (endRecord name (checksumFile content)).endCkpt =
      some ⟨name, checksumFile content⟩ := by
  have hchecksum : Utf8.Valid (checksumFile content) :=
    Utf8.valid_of_ascii (hex32_ascii _)
  simp only [endRecord, Record.endCkpt, if_true, decodeEndCheckpoint_encodeEndCheckpoint,
    EndCheckpoint.coerce, Utf8.flatten_runes_of_valid hname,
    Utf8.flatten_runes_of_valid hchecksum]

section Appends

variable {c : Coordinator} {log dropped : List Record} {closed : List (List Record)}
  {active : List Record} {author : Author} {rec : Record}

theorem Coordinator.Sane.lastBegin_log {lsn : UInt64}
    (hsane : c.Sane log dropped closed active)
    (hbegun : Begun (closed.flatten ++ active) lsn) : lastBegin log = lsn.toNat := by
  rw [← hbegun.found]
  apply hsane.disk.lastBegin_log
  rw [hbegun.found]
  exact hbegun.positive

theorem Coordinator.Sane.appendable (hsane : c.Sane log dropped closed active)
    (happends : c.Appends author rec) : Appendable c.log.dir log (c.log.stamp rec) := by
  cases happends with
  | call hrecord => exact appendable_of_not_end (Catalog.ordinary_of_record hrecord).2
  | begin hphase => exact appendable_of_not_end (by simp [Wal.stamp, beginRecord])
  | @finish lsn name checksum hphase =>
      have hkeeps := hsane.keeps
      rw [hphase] at hkeeps
      obtain ⟨hbegun, -, hunused, found, hstands, hfile, rfl⟩ := hkeeps
      have hend : (c.log.stamp (endRecord name (checksumFile (frames found)))).endCkpt =
          some ⟨name, checksumFile (frames found)⟩ :=
        endCkpt_endRecord hunused.valid _
      have hlast := hsane.lastBegin_log hbegun
      refine ⟨?_, ?_, ?_⟩
      · rintro endCkpt hsame
        rw [hend] at hsame
        cases hsame
        exact hunused.suffix
      · intro _
        rw [hlast]
        exact hbegun.positive
      · rintro endCkpt content hsame hcontent
        rw [hend] at hsame
        cases hsame
        rw [hfile] at hcontent
        cases hcontent
        exact ⟨found, rfl, rfl, by rw [hlast]; exact hstands⟩

theorem Coordinator.Sane.length_log (hsane : c.Sane log dropped closed active) :
    log.length = dropped.length + (closed.flatten ++ active).length := by
  rw [← hsane.disk.whole, List.length_append]

theorem Coordinator.Sane.stamp_lsn (hsane : c.Sane log dropped closed active)
    (rec : Record) : (c.log.stamp rec).lsn.toNat = log.length + 1 := by
  rw [hsane.live.ready.stamp_lsn, hsane.length_log]
  omega

theorem Coordinator.Sane.keeps_appended {after : Wal} {closed' : List (List Record)}
    {active' : List Record} (hsane : c.Sane log dropped closed active)
    (happends : c.Appends author rec)
    (hgrows : Grows c.log (dropped.length + 1) closed active rec after closed' active')
    (hafter : Live after (dropped.length + 1) closed' active')
    (hsize : after.maxSegSize = c.log.maxSegSize)
    (hother : ∀ name, ¬ hasSuffix name walSuffix →
      after.dir.lookup name = c.log.dir.lookup name) :
    (c.appended after rec c.log.nextLSN author).checkpoint.Keeps after
      (log ++ [c.log.stamp rec]) dropped closed' active' := by
  cases happends with
  | call hrecord =>
      obtain ⟨hbegin, hend⟩ := Catalog.ordinary_of_record hrecord
      have hgrown := hsane.keeps.grow hgrows hsane.live hafter hsize hsane.disk hother
        hbegin hend hsane.awake
      simp only [appended, maybeCheckpoint]
      split
      · rename_i hphase
        rw [hphase] at hgrown
        split_ifs
        · exact hgrown
        · rw [hphase]
          exact hgrown
      · exact hgrown
  | begin hphase =>
      have hkeeps := hsane.keeps
      rw [hphase] at hkeeps
      have hnonempty := hsane.awake (by rw [hphase]; simp)
      have hlsn := hsane.live.ready.toNat_nextLSN
      simp only [appended, hphase]
      refine ⟨⟨?_, by omega⟩, ?_, ?_⟩
      · rw [hgrows.records, lastBegin_concat, if_pos (by rfl)]
        rfl
      · rcases hsane.disk.anchored with hnil | ⟨name, begin, hanchor⟩
        · exact .inl hnil
        · have hsame := hother name (not_wal_of_ckpt (hsane.disk.anchor_suffix hanchor))
          refine .inr ⟨_, name, begin, ?_, ?_, hanchor.congr hsame⟩
          · rw [hgrows.records]
            exact List.prefix_append _ _
          · omega
      · rw [hlsn]
        exact hgrows.settled hnonempty hkeeps
  | finish hphase =>
      have hkeeps := hsane.keeps
      rw [hphase] at hkeeps
      obtain ⟨hbegun, hplain, hunused, found, hstands, hfile, rfl⟩ := hkeeps
      have hnonempty := hsane.awake (by rw [hphase]; simp)
      have hnone : c.log.segments =
          [] ++ segmentNames (dropped.length + 1) closed := hplain
      have hsame := hother _ (not_wal_of_ckpt hunused.suffix)
      simp only [appended, hphase]
      refine ⟨hgrows.lists hnonempty hnone, ?_⟩
      rw [hgrows.records]
      exact ⟨_, _, _, List.prefix_rfl, endCkpt_endRecord hunused.valid _, rfl,
        ⟨_, hsame.trans hfile⟩, hbegun.found, hbegun.positive⟩

theorem Coordinator.Sane.append (hsane : c.Sane log dropped closed active)
    (happends : c.Appends author rec) (hfits : (c.log.stamp rec).Fits)
    (hcount : log.length + 2 < 2 ^ 64) :
    ∃ after closed' active', c.log.append rec = (after, .ok c.log.nextLSN) ∧
      Coordinator.Sane (c.appended after rec c.log.nextLSN author)
        (log ++ [c.log.stamp rec]) dropped closed' active' := by
  have hlength := hsane.length_log
  obtain ⟨after, closed', active', happend, hgrows, hafter, hsize⟩ :=
    hsane.live.append rec (by omega)
  have hother : ∀ name, ¬ hasSuffix name walSuffix →
      after.dir.lookup name = c.log.dir.lookup name := by
    intro name hname
    have hlookup := Wal.lookup_append hsane.live.file_suffix hname hsane.live.usable rec
    rwa [happend] at hlookup
  have hdisk : Disk after.dir (log ++ [c.log.stamp rec]) dropped closed' active' [] := by
    apply hsane.disk.extend hafter.ready.layout hgrows.records
    · exact fun name hckpt => hother name (not_wal_of_ckpt hckpt)
    · exact hsane.stamp_lsn rec
    · exact hfits
    · exact hsane.appendable happends
  have hkeeps := hsane.keeps_appended happends hgrows hafter hsize hother
  have hlog : (c.appended after rec c.log.nextLSN author).log = after := by
    unfold appended maybeCheckpoint
    split
    · dsimp only
      split
      · split_ifs <;> rfl
      · rfl
    · split <;> rfl
  refine ⟨after, closed', active', happend, ?_, ?_, ?_, fun _ => hgrows.nonempty⟩
  · rw [hlog]
    exact hdisk
  · rw [hlog]
    exact hafter
  · rw [hlog]
    exact hkeeps

theorem Coordinator.Sane.crashIn {ready : Wal} (hsane : c.Sane log dropped closed active)
    (happends : c.Appends author rec) (hfits : (c.log.stamp rec).Fits)
    (hcount : log.length + 2 < 2 ^ 64) (hprepare : c.log.prepare rec {} = .ok ready)
    (cut : Nat) :
    ∃ closed' active' tail,
      Disk (ready.write ((c.log.stamp rec).encode.take cut)).dir
        (if (c.log.stamp rec).encode.length ≤ cut then log ++ [c.log.stamp rec] else log)
        dropped closed' active' tail := by
  have hlength := hsane.length_log
  have hckpt : ∀ name, hasSuffix name ckptSuffix →
      (ready.write ((c.log.stamp rec).encode.take cut)).dir.lookup name =
        c.log.dir.lookup name := fun name hname =>
    Wal.lookup_prepare hsane.live.file_suffix (not_wal_of_ckpt hname) hprepare _
  obtain ⟨closed', active', hready, hrecords⟩ := hsane.live.ready.prepare hprepare
  have hstamp := Wal.prepare_stamp hprepare
  split_ifs with hwhole
  · rw [List.take_of_length_le hwhole] at hckpt ⊢
    have hlayout := hready.write_frame rec (by rw [hrecords]; omega)
    rw [hstamp] at hlayout
    refine ⟨closed', active' ++ [c.log.stamp rec], [], hsane.disk.extend hlayout ?_ hckpt
      (hsane.stamp_lsn rec) hfits (hsane.appendable happends)⟩
    rw [← List.append_assoc, hrecords]
  · refine ⟨closed', active', _, hsane.disk.reshape (hready.write_part _) hrecords ?_ hckpt⟩
    exact ⟨_, hfits, cut, Nat.not_le.mp hwhole, rfl⟩

end Appends

end SimonMQ.Durable
