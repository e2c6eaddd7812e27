import SimonMQ.Durable.Sessions

namespace SimonMQ.Durable

open SimonMQ.Go
open SimonMQ.Transition

/-! The readers' length limit, which `Encode` and `Append` do not know.  The records
of one session come back whole exactly when each of them keeps to it. -/

theorem readFrame_tooLong {rec : Record} (hlong : maxLogLength < rec.lengthField)
    (hlength : rec.lengthField < 2 ^ 32) (rest : Bytes) :
    readFrame (rec.encode ++ rest) = .tooLong rec.lengthField := by
  have htotal : (rec.encode ++ rest).length = 12 + rec.lengthField + rest.length := by
    rw [List.length_append, Record.length_encode]
  have hnonempty : (rec.encode ++ rest).isEmpty = false := by
    rw [List.isEmpty_eq_false_iff_exists_mem]
    exact List.exists_mem_of_length_pos (by omega)
  rw [readFrame, if_neg (by simp [hnonempty]), if_neg (by omega)]
  simp only [toNat_lengthField hlength, if_pos hlong]

theorem readFrame_ne_eof {bytes : Bytes} (hbytes : bytes ≠ []) : readFrame bytes ≠ .eof := by
  unfold readFrame
  rw [if_neg (by simpa using hbytes)]
  dsimp only
  split_ifs
  · simp
  · simp
  · simp
  · split <;> simp

section

variable {dir : Directory} {base : Nat} {closed : List (List Record)}
  {active : List Record}

theorem Layout.content_frames (hlayout : Layout dir base closed active []) {name : GoString}
    (hsuffix : hasSuffix name walSuffix) {content : Bytes}
    (hcontent : dir.lookup name = some content) :
    ∃ records, content = frames records ∧
      ∀ rec ∈ records, rec ∈ closed.flatten ++ active := by
  have hfiles : ∀ (base : Nat) (closed : List (List Record)),
      ∀ entry ∈ closedFiles base closed, ∃ records ∈ closed, entry.2 = frames records := by
    intro base closed
    induction closed generalizing base with
    | nil => simp [closedFiles]
    | cons records closed ih =>
        intro entry hentry
        rcases List.mem_cons.mp hentry with rfl | hrest
        · exact ⟨records, List.mem_cons_self, rfl⟩
        · obtain ⟨found, hfound, heq⟩ := ih _ entry hrest
          exact ⟨found, List.mem_cons_of_mem _ hfound, heq⟩
  rw [hlayout.content name hsuffix, List.lookup_eq_some_iff] at hcontent
  obtain ⟨before, after, hsplit, _⟩ := hcontent
  have hmem : (name, content) ∈ segmentFiles base closed active [] := by
    rw [hsplit]
    simp
  rcases List.mem_append.mp hmem with hclosed | hactive
  · obtain ⟨records, hrecords, heq⟩ := hfiles base closed _ hclosed
    exact ⟨records, heq, fun rec hrec =>
      List.mem_append_left _ (List.mem_flatten_of_mem hrecords hrec)⟩
  · rw [List.mem_singleton, Prod.mk.injEq] at hactive
    exact ⟨active, by simpa using hactive.2, fun rec hrec => List.mem_append_right _ hrec⟩

theorem Layout.first_content {rec : Record} {rest : List Record}
    (hlayout : Layout dir base closed active [])
    (hrecords : closed.flatten ++ active = rec :: rest) :
    ∃ bytes, dir.lookup (segName base) = some (rec.encode ++ bytes) := by
  cases closed with
  | nil =>
      have hactive : active = rec :: rest := hrecords
      have hcontent := hlayout.lookup_active
      rw [hactive] at hcontent
      exact ⟨frames rest, by simpa using hcontent⟩
  | cons records closed =>
      cases records with
      | nil => exact absurd rfl (hlayout.nonempty [] List.mem_cons_self)
      | cons head records =>
          obtain ⟨rfl, _⟩ := List.cons.inj hrecords
          have hcontent := @Layout.lookup_closed _ _ _ _ [] _ _ hlayout
          exact ⟨frames records, by simpa using hcontent⟩

theorem fits_of_fetch {reader : Reader} {rec : Record} {rest : Bytes}
    {content : Bytes} {segments : List GoString} {found : Record} {next : Reader}
    (hcontent : dir.lookup reader.current = some content)
    (hahead : content.drop reader.offset = rec.encode ++ rest)
    (hfetch : reader.fetch dir segments = .record found next) (hfound : found = rec) :
    rec.Fits ∧ next = ⟨reader.current, reader.offset + rec.encode.length⟩ := by
  subst hfound
  simp only [Reader.fetch, hcontent, hahead] at hfetch
  cases hread : readFrame (found.encode ++ rest) with
  | frame other size =>
      rw [hread] at hfetch
      simp only [Fetch.record.injEq] at hfetch
      obtain ⟨rfl, rfl⟩ := hfetch
      obtain ⟨hsize, _, hlimit⟩ := readFrame_size hread
      exact ⟨hlimit, by rw [Record.length_encode, hsize]⟩
  | eof =>
      refine absurd hread (readFrame_ne_eof ?_)
      intro hnil
      have := congrArg List.length hnil
      simp at this
  | torn =>
      rw [hread] at hfetch
      dsimp only at hfetch
      split at hfetch <;> contradiction
  | tooLong length => simp [hread] at hfetch
  | invalid => simp [hread] at hfetch
  | panics => simp [hread] at hfetch

theorem eof_of_opened {reader next : Reader} {content : Bytes} {segments : List GoString}
    (hcontent : dir.lookup reader.current = some content)
    (hfetch : reader.fetch dir segments = .opened next) :
    readFrame (content.drop reader.offset) = .eof := by
  simp only [Reader.fetch, hcontent] at hfetch
  generalize readFrame (content.drop reader.offset) = outcome at hfetch ⊢
  cases outcome with
  | eof => rfl
  | torn =>
      dsimp only at hfetch
      split at hfetch <;> contradiction
  | tooLong length => contradiction
  | invalid => contradiction
  | panics => contradiction
  | frame rec size => contradiction

theorem Layout.ahead (hlayout : Layout dir base closed active []) {reader : Reader}
    {remaining : List Record}
    (hposition : Position base closed active reader remaining) :
    (∃ rec rest content bytes, remaining = rec :: rest ∧
      dir.lookup reader.current = some content ∧
      content.drop reader.offset = rec.encode ++ bytes ∧
      Position base closed active
        ⟨reader.current, reader.offset + rec.encode.length⟩ rest) ∨
    (∃ next, reader.fetch dir (segmentNames base closed) = .opened next ∧
      Position base closed active next remaining) ∨
    remaining = [] := by
  cases hposition with
  | inClosed before after done todo hclosed =>
      subst hclosed
      cases todo with
      | nil =>
          rw [List.append_nil] at hlayout ⊢
          have hnext : Position base (before ++ done :: after) active _ _ :=
            Position.next before after done
          exact .inr (.inl ⟨_, hlayout.fetch_closed_end hlayout.segmentAfter_closed
            (hlayout.lookup_position hnext), hnext⟩)
      | cons rec todo =>
          have hmoved : Position base (before ++ (done ++ [rec] ++ todo) :: after) active
              ⟨segName (base + before.flatten.length), (frames (done ++ [rec])).length⟩
              (todo ++ (after.flatten ++ active)) :=
            .inClosed before after (done ++ [rec]) todo rfl
          refine .inl ⟨rec, _, _, frames todo, rfl, hlayout.lookup_closed, ?_, ?_⟩
          · rw [frames_append]
            exact List.drop_left' rfl
          · simpa using hmoved
  | inActive done todo hactive =>
      subst hactive
      cases remaining with
      | nil => exact .inr (.inr rfl)
      | cons rec todo =>
          have hmoved : Position base closed (done ++ [rec] ++ todo)
              ⟨segName (base + closed.flatten.length), (frames (done ++ [rec])).length⟩
              todo :=
            .inActive (done ++ [rec]) todo rfl
          refine .inl ⟨rec, todo, _, frames todo, rfl, hlayout.lookup_active, ?_, ?_⟩
          · rw [List.append_nil, frames_append]
            exact List.drop_left' rfl
          · simpa using hmoved

theorem Layout.fits_of_drain (hlayout : Layout dir base closed active []) {fuel : Nat}
    {reader : Reader} {remaining : List Record} {ending : ReadEnd}
    (hposition : Position base closed active reader remaining)
    (hdrain : reader.drain dir (segmentNames base closed) fuel = some (remaining, ending)) :
    ∀ rec ∈ remaining, rec.Fits := by
  induction fuel generalizing reader remaining ending with
  | zero => simp [Reader.drain] at hdrain
  | succ fuel ih =>
      rcases hlayout.ahead hposition with
        ⟨rec, rest, content, bytes, rfl, hcontent, hahead, hmoved⟩ |
          ⟨next, hfetch, hnext⟩ | rfl
      · rw [Reader.drain] at hdrain
        cases hfetch : reader.fetch dir (segmentNames base closed) with
        | record found next =>
            rw [hfetch] at hdrain
            obtain ⟨⟨later, last⟩, hlater, hcons⟩ := Option.map_eq_some_iff.mp hdrain
            obtain ⟨hlist, hlast⟩ := Prod.mk.inj hcons
            obtain ⟨hfound, rfl⟩ := List.cons.inj hlist
            obtain ⟨hfits, rfl⟩ := fits_of_fetch hcontent hahead hfetch hfound
            intro other hother
            rcases List.mem_cons.mp hother with rfl | htail
            · exact hfits
            · exact ih hmoved hlater other htail
        | opened next =>
            have hne : rec.encode ++ bytes ≠ [] := by
              intro hnil
              have := congrArg List.length hnil
              simp at this
            exact absurd (hahead ▸ eof_of_opened hcontent hfetch) (readFrame_ne_eof hne)
        | finished => simp [hfetch] at hdrain
        | failed err => simp [hfetch] at hdrain
        | panicked => simp [hfetch] at hdrain
      · rw [Reader.drain, hfetch] at hdrain
        exact ih hnext hdrain
      · simp

end

namespace Sessions

/-- One session without faults: open, then these appends. -/
def oneSession (maxSegSize : Int) (mode : Mode) (records : List Record) :
    List SessionEvent :=
  .start maxSegSize mode :: records.map fun rec => .append rec {}

structure Standing (s : Sessions) (w : Wal) (closed : List (List Record))
    (active : List Record) : Prop where
  wal : s.wal = some w
  dir : s.dir = w.dir
  usable : w.fileOpen = true
  ready : Ready w 1 closed active
  written : s.written = closed.flatten ++ active
  segmentsOnly : SegmentsOnly w.dir

theorem standing_append {s next : Sessions} {w : Wal} {closed : List (List Record)}
    {active : List Record} {rec : Record} (hstanding : Standing s w closed active)
    (hcount : s.written.length + 2 < 2 ^ 64)
    (hstep : step s (.append rec {}) = some next) :
    (∃ w' closed' active', Standing next w' closed' active') ∧
      next.written = s.written ++ [w.stamp rec] ∧
      next.accepted = s.accepted ++ [w.stamp rec] := by
  have hsucceeded := w.append_usable hstanding.usable rec
  rw [Wal.append] at hsucceeded
  simp only [step, hstanding.wal] at hstep
  have happended := w.appended {} rec
  generalize w.appendWith {} rec = outcome at hstep happended hsucceeded
  cases happended with
  | untouched err => simp at hsucceeded
  | failed err count => simp at hsucceeded
  | @succeeded ready hprepare hreached =>
      rw [hreached, if_pos rfl] at hstep
      cases hstep
      obtain ⟨closed', active', hready, hrecords⟩ := hstanding.ready.prepare hprepare
      have hcommit := hready.commit rec (by rw [hrecords, ← hstanding.written]; omega)
        (w.stamp rec).encode.length
      rw [Wal.prepare_stamp hprepare] at hcommit
      refine ⟨⟨_, closed', _, rfl, rfl, hsucceeded.1, hcommit, ?_, ?_⟩, rfl, rfl⟩
      · rw [hstanding.written, ← hrecords, List.append_assoc]
      · exact (hstanding.segmentsOnly.prepare hprepare).appendTo _ _

theorem standing_appends {records : List Record} {s final : Sessions} {w : Wal}
    {closed : List (List Record)} {active : List Record}
    (hstanding : Standing s w closed active)
    (hcount : s.written.length + records.length + 2 < 2 ^ 64)
    (hexec : exec step s (records.map fun rec => .append rec {}) = some final) :
    (∃ w' closed' active', Standing final w' closed' active') ∧
      ∃ stamped : List Record,
        stamped.map Record.lengthField = records.map Record.lengthField ∧
        final.written = s.written ++ stamped ∧ final.accepted = s.accepted ++ stamped := by
  induction records generalizing s w closed active with
  | nil =>
      cases hexec
      exact ⟨⟨w, closed, active, hstanding⟩, [], by simp⟩
  | cons rec records ih =>
      obtain ⟨next, hnext, hrest⟩ := exec_cons.mp hexec
      rw [List.length_cons] at hcount
      obtain ⟨⟨w', closed', active', hstanding'⟩, hwritten, haccepted⟩ :=
        standing_append hstanding (by omega) hnext
      have hlength : next.written.length = s.written.length + 1 := by
        rw [hwritten, List.length_append, List.length_singleton]
      obtain ⟨hfinal, stamped, hfields, hwritten', haccepted'⟩ :=
        ih hstanding' (by omega) hrest
      refine ⟨hfinal, w.stamp rec :: stamped, ?_, ?_, ?_⟩
      · rw [List.map_cons, List.map_cons, hfields]
        rfl
      · rw [hwritten', hwritten, List.append_assoc, List.singleton_append]
      · rw [haccepted', haccepted, List.append_assoc, List.singleton_append]

theorem standing_oneSession {maxSegSize : Int} {mode : Mode} {records : List Record}
    {s final : Sessions} (hrecorded : Recorded s)
    (hcount : s.written.length + records.length + 2 < 2 ^ 64)
    (hexec : exec step s (oneSession maxSegSize mode records) = some final) :
    (∃ w closed active, Standing final w closed active) ∧
      ∃ stamped : List Record,
        stamped.map Record.lengthField = records.map Record.lengthField ∧
        final.written = s.written ++ stamped ∧ final.accepted = s.accepted ++ stamped := by
  obtain ⟨next, hstart, hrest⟩ := exec_cons.mp hexec
  obtain ⟨w, closed, active, hopen, hready, _, honly, hwritten⟩ :=
    hrecorded.opens maxSegSize mode
  have husable : w.fileOpen = true := Wal.openDir_usable hopen
  simp only [step, hopen] at hstart
  split at hstart
  · rename_i opened _ hok
    cases hok
    cases hstart
    have hstanding : Standing { s with dir := w.dir, wal := some w, spoiled := false }
        w closed active :=
      ⟨rfl, rfl, husable, hready, hwritten.symm, honly⟩
    have hfinal := standing_appends hstanding hcount hrest
    exact hfinal
  · contradiction

/-- After any harmless history, a session's appends all succeed, and both readers
keep the whole log exactly when each of these appends is within their limit. -/
theorem readers_keep_accepted_iff_fit {history : List SessionEvent} {maxSegSize : Int}
    {mode : Mode} {records : List Record} {before s : Sessions}
    (hmeets : Meets step (fun s event => WithinLimit event ∧ Unspoiled s event)
      initial history)
    (hhistory : exec step initial history = some before)
    (hcount : before.written.length + records.length + 2 < 2 ^ 64)
    (hexec : exec step before (oneSession maxSegSize mode records) = some s) :
    (∃ stamped : List Record,
      stamped.map Record.lengthField = records.map Record.lengthField ∧
      s.written = before.written ++ stamped ∧ s.accepted = before.accepted ++ stamped) ∧
    (((∀ name content, s.dir.lookup name = some content →
        ∃ kept, scanSegment content = some (kept, content.length)) ∧
      ∃ enough, ∀ fuel, enough ≤ fuel →
        Reader.drain s.dir (s.dir.namesWith walSuffix) fuel ⟨segmentFileName 1, 0⟩ =
          some (s.written, .finished)) ↔
      ∀ rec ∈ records, rec.Fits) := by
  have hrecorded := recorded_run hmeets hhistory (by omega)
  obtain ⟨⟨w, closed, active, hstanding⟩, stamped, hfields, hwritten, haccepted⟩ :=
    standing_oneSession hrecorded hcount hexec
  have hlayout : Layout s.dir 1 closed active [] := hstanding.dir ▸ hstanding.ready.layout
  have hfits : (∀ rec ∈ s.written, rec.Fits) ↔ ∀ rec ∈ records, rec.Fits := by
    have hmap : ∀ list : List Record, (∀ rec ∈ list, rec.Fits) ↔
        ∀ field ∈ list.map Record.lengthField, field ≤ maxLogLength := by
      intro list
      rw [List.forall_mem_map]
      rfl
    rw [hwritten, List.forall_mem_append, hmap stamped, hmap records, hfields]
    exact and_iff_right hrecorded.fits
  refine ⟨⟨stamped, hfields, hwritten, haccepted⟩, ?_⟩
  rw [← hfits, hlayout.namesWith_walSuffix, segmentFileName_one, hstanding.written]
  constructor
  · rintro ⟨_, enough, hdrain⟩
    exact hlayout.fits_of_drain (Position.start 1 closed active)
      (hdrain enough (Nat.le_refl _))
  · intro hall
    refine ⟨fun name content hcontent => ?_, (hlayout.yields hall torn_nil).drain⟩
    have hsuffix : hasSuffix name walSuffix :=
      hstanding.segmentsOnly name content (hstanding.dir ▸ hcontent)
    obtain ⟨kept, rfl, hkept⟩ := hlayout.content_frames hsuffix hcontent
    have hscan := scanSegment_frames (fun rec hmem => hall rec (hkept rec hmem)) torn_nil
    rw [List.append_nil] at hscan
    exact ⟨kept, hscan⟩

theorem small_session_is_kept :
    ∃ s, exec step initial (oneSession 30 .sync [⟨0, .createQueue, lit "orders", []⟩,
        ⟨0, .deleteQueue, lit "orders", []⟩]) = some s ∧ s.accepted.length = 2 ∧
      (∀ name content, s.dir.lookup name = some content →
        ∃ kept, scanSegment content = some (kept, content.length)) ∧
      ∃ enough, ∀ fuel, enough ≤ fuel →
        Reader.drain s.dir (s.dir.namesWith walSuffix) fuel ⟨segmentFileName 1, 0⟩ =
          some (s.written, .finished) := by
  have hrun : (exec step initial (oneSession 30 .sync [⟨0, .createQueue, lit "orders", []⟩,
      ⟨0, .deleteQueue, lit "orders", []⟩])).map (fun s => s.accepted.length) = some 2 := by
    decide +kernel
  obtain ⟨s, hexec, hlength⟩ := Option.map_eq_some_iff.mp hrun
  have hmeets : Meets step (fun s event => WithinLimit event ∧ Unspoiled s event)
      initial [] := trivial
  exact ⟨s, hexec, hlength,
    (readers_keep_accepted_iff_fit hmeets (exec_nil initial) (by decide) hexec).2.mpr
      (by decide +kernel)⟩

/-- A single record over the limit: its append succeeds, recovery then cuts it off,
and a reader stops with an error. -/
theorem lost_of_tooLong (rec : Record) (hlong : maxLogLength < rec.lengthField)
    (hlength : rec.lengthField < 2 ^ 32) (maxSegSize : Int) (mode : Mode) :
    ∃ s, exec step initial (oneSession maxSegSize mode [rec]) = some s ∧
      s.accepted.length = 1 ∧
      (∃ content, s.dir.lookup (segmentFileName 1) = some content ∧
        scanSegment content = some ([], 0)) ∧
      ∀ fuel, 1 ≤ fuel →
        Reader.drain s.dir (s.dir.namesWith walSuffix) fuel ⟨segmentFileName 1, 0⟩ =
          some ([], .failed (.overMaxLength rec.lengthField)) := by
  obtain ⟨w, hopen, _⟩ := openDir_empty maxSegSize mode
  obtain ⟨s, hexec⟩ :
      ∃ s, exec step initial (oneSession maxSegSize mode [rec]) = some s := by
    simp only [oneSession, List.map_cons, List.map_nil, exec, step, initial, hopen]
    exact ⟨_, rfl⟩
  obtain ⟨⟨w, closed, active, hstanding⟩, records, hfields, hwritten, haccepted⟩ :=
    standing_oneSession recorded_initial (by simp [initial]) hexec
  have hlayout : Layout s.dir 1 closed active [] := hstanding.dir ▸ hstanding.ready.layout
  obtain ⟨stamped, rfl⟩ : ∃ stamped, records = [stamped] :=
    List.length_eq_one_iff.mp (by simpa using congrArg List.length hfields)
  have hfield : stamped.lengthField = rec.lengthField := (List.cons.inj hfields).1
  obtain ⟨bytes, hcontent⟩ :=
    hlayout.first_content (hstanding.written.symm.trans hwritten)
  have hread := readFrame_tooLong (hfield ▸ hlong) (hfield ▸ hlength) bytes
  rw [hfield] at hread
  refine ⟨s, hexec, by rw [haccepted]; rfl, ?_⟩
  rw [hlayout.namesWith_walSuffix, segmentFileName_one]
  refine ⟨⟨_, hcontent, ?_⟩, fun fuel hfuel => ?_⟩
  · rw [scanSegment]
    split <;> simp_all
  · obtain ⟨fuel, rfl⟩ := Nat.exists_eq_add_of_le' hfuel
    have hfetch : Reader.fetch s.dir (segmentNames 1 closed) ⟨segName 1, 0⟩ =
        .failed (.overMaxLength rec.lengthField) := by
      simp only [Reader.fetch, hcontent, List.drop_zero, hread]
    rw [Reader.drain, hfetch]

def bulky (size : Nat) : Record := ⟨0, .enqueue, lit "orders", List.replicate size 0⟩

theorem lengthField_bulky (size : Nat) : (bulky size).lengthField = size + 15 := by
  have hname : (lit "orders").length = 6 := by decide +kernel
  rw [Record.lengthField, bulky, List.length_replicate, hname]
  omega

theorem sixteen_mebibytes_are_lost :
    ∃ s, exec step initial
        (oneSession (128 * 1024 * 1024) .sync [bulky (16 * 1024 * 1024)]) = some s ∧
      s.accepted.length = 1 ∧
      (∃ content, s.dir.lookup (segmentFileName 1) = some content ∧
        scanSegment content = some ([], 0)) ∧
      ∀ fuel, 1 ≤ fuel →
        Reader.drain s.dir (s.dir.namesWith walSuffix) fuel ⟨segmentFileName 1, 0⟩ =
          some ([], .failed (.overMaxLength (bulky (16 * 1024 * 1024)).lengthField)) := by
  apply lost_of_tooLong
  · rw [lengthField_bulky]
    decide
  · rw [lengthField_bulky]
    decide

end Sessions

end SimonMQ.Durable
