import SimonMQ.Durable.Partition
import SimonMQ.Go.Slice

namespace SimonMQ.Durable

open SimonMQ.Go SimonMQ.Go.Slice

/-! On which bytes `Decode` panics, and with it the two loops that read files. -/

/-- A call of `Decode`, for all a caller can tell. -/
def Decoded.ofChecked : Except Panic (Except DecodeError Record) → Decoded
  | .error _ => .panics
  | .ok (.error err) => .error err
  | .ok (.ok rec) => .ok rec

namespace Record

/-- `Decode` once the frame is known to be there. -/
def decodeFields (crc : Bytes → UInt32) (data spare lsn : Bytes) (remainingLength : Nat) :
    Except Panic (Except DecodeError Record) := do
  let opType ← load data 12
  let nameField ← slice (data ++ spare) 13 17
  let queueNameLen := (uint32 nameField).toNat
  let queueName ← slice (data ++ spare) 17 (17 + queueNameLen)
  let payloadStart := 17 + queueNameLen
  let payloadEnd := remainingLength + 8
  let payload ← make (payloadEnd - payloadStart) 0
  let source ← slice (data ++ spare) payloadStart payloadEnd
  let payload := copy payload source
  let crcField ← slice (data ++ spare) (remainingLength + 8) (remainingLength + 12)
  let body ← slice (data ++ spare) 0 (remainingLength + 8)
  if uint32 crcField ≠ crc body then return .error .invalidCrc
  else return .ok { lsn := uint64 lsn, opType := .ofCode opType, queueName, payload }

/-- `Decode` with every index, slice and allocation as the run time checks it.  The
backing array goes on with `spare` up to the capacity of `data`. -/
def decodeChecked (crc : Bytes → UInt32) (data spare : Bytes) :
    Except Panic (Except DecodeError Record) :=
  if data.length < 12 then return .error .tooShort
  else do
    let lsn ← slice (data ++ spare) 0 8
    let lengthField ← slice (data ++ spare) 8 12
    let remainingLength := (uint32 lengthField).toNat
    if data.length < remainingLength + 12 then return .error .tooShort
    else decodeFields crc data spare lsn remainingLength

/-- The header is there, and so is everything its length field announces. -/
def Announced (data : Bytes) : Prop :=
  12 ≤ data.length ∧ (uint32 (data.drop 8)).toNat + 12 ≤ data.length

def NameFits (data : Bytes) : Prop :=
  17 + (uint32 (data.drop 13)).toNat ≤ (uint32 (data.drop 8)).toNat + 8

instance (data : Bytes) : Decidable (Announced data) := inferInstanceAs (Decidable (_ ∧ _))

instance (data : Bytes) : Decidable (NameFits data) := inferInstanceAs (Decidable (_ ≤ _))

theorem decodeWith_panics_iff (crc : Bytes → UInt32) (data : Bytes) :
    decodeWith crc data = .panics ↔ Announced data ∧ ¬ NameFits data := by
  unfold decodeWith Announced NameFits
  dsimp only
  split_ifs with hheader hframe hbounds hcrc
  · exact iff_of_false (by simp) (by omega)
  · exact iff_of_false (by simp) (by omega)
  · exact iff_of_true rfl (by omega)
  · exact iff_of_false (by simp) (by omega)
  · exact iff_of_false (by simp) (by omega)

section Checked

variable (crc : Bytes → UInt32) {data : Bytes} (spare : Bytes)

theorem slice_append {low high : Nat} (hlow : low ≤ high) (hhigh : high ≤ data.length) :
    slice (data ++ spare) low high = .ok ((data.drop low).take (high - low)) := by
  rw [slice_of_le hlow (by rw [List.length_append]; omega),
    List.take_append_of_le_length hhigh, List.drop_take]

theorem uint32_take_four (bytes : Bytes) : uint32 (bytes.take 4) = uint32 bytes := by
  rw [uint32, List.take_take, Nat.min_self, ← uint32]

theorem uint64_take_eight (bytes : Bytes) : uint64 (bytes.take 8) = uint64 bytes := by
  rw [uint64, List.take_take, Nat.min_self, ← uint64]

theorem decodeChecked_of_header (hheader : 12 ≤ data.length) :
    decodeChecked crc data spare =
      if data.length < (uint32 (data.drop 8)).toNat + 12 then .ok (.error .tooShort)
      else decodeFields crc data spare (data.take 8) (uint32 (data.drop 8)).toNat := by
  have hlsn := slice_append spare (Nat.zero_le 8) (by omega : 8 ≤ data.length)
  have hlength := slice_append spare (by omega : 8 ≤ 12) hheader
  rw [decodeChecked, if_neg (by omega), hlsn, hlength, ← uint32_take_four (data.drop 8)]
  rfl

/-- A name field that reaches past the checksum leaves the payload a negative length,
also where the field itself lies beyond the data. -/
theorem decodeFields_of_overlong (hannounced : Announced data) (hlong : ¬ NameFits data)
    (lsn : Bytes) :
    ∃ panic, decodeFields crc data spare lsn (uint32 (data.drop 8)).toNat =
      .error panic := by
  rw [Announced] at hannounced
  rw [NameFits] at hlong
  have hname : ∀ nameField, slice (data ++ spare) 13 17 = .ok nameField →
      (uint32 (data.drop 8)).toNat + 8 < 17 + (uint32 nameField).toNat := by
    intro nameField hfield
    by_cases hlength : 17 ≤ data.length
    · rw [slice_append spare (by omega) hlength, Except.ok.injEq] at hfield
      rw [← hfield, uint32_take_four]
      omega
    · omega
  rw [decodeFields]
  cases load data 12 with
  | error panic => exact ⟨panic, rfl⟩
  | ok opType =>
      cases hfield : slice (data ++ spare) 13 17 with
      | error panic => exact ⟨panic, rfl⟩
      | ok nameField =>
          have hnegative := hname nameField hfield
          simp only [bind, Except.bind]
          cases slice (data ++ spare) 17 (17 + (uint32 nameField).toNat) with
          | error panic => exact ⟨panic, rfl⟩
          | ok queueName =>
              dsimp only
              rw [make, if_pos (by omega)]
              exact ⟨_, rfl⟩

theorem decodeFields_of_fits (hannounced : Announced data) (hfits : NameFits data) :
    ∃ outcome, decodeFields crc data spare (data.take 8) (uint32 (data.drop 8)).toNat =
        .ok outcome ∧
      Decoded.ofChecked (.ok outcome) = decodeWith crc data := by
  rw [Announced] at hannounced
  rw [NameFits] at hfits
  have hnameField := slice_append spare (by omega : 13 ≤ 17) (by omega : 17 ≤ data.length)
  have hcode : load data 12 = .ok ((data.drop 12).headD 0) := by
    rw [load_of_lt (by omega), List.drop_eq_getElem_cons (by omega)]
    rfl
  rw [decodeFields, decodeWith, if_neg (by omega), if_neg (by omega), if_neg (by omega),
    hcode, hnameField]
  simp only [bind, Except.bind, uint32_take_four, uint64_take_eight, Nat.reduceSub]
  generalize (uint32 (data.drop 13)).toNat = nameLen at *
  generalize (uint32 (data.drop 8)).toNat = length at *
  have hname := slice_append spare (by omega : 17 ≤ 17 + nameLen)
    (by omega : 17 + nameLen ≤ data.length)
  have hpayload := slice_append spare hfits (by omega : length + 8 ≤ data.length)
  have hcrcField := slice_append spare (by omega : length + 8 ≤ length + 12) hannounced.2
  have hbody := slice_append spare (Nat.zero_le (length + 8))
    (by omega : length + 8 ≤ data.length)
  have hcopied : (List.replicate (length + 8 - (17 + nameLen)) (0 : UInt8)).length =
      ((data.drop (17 + nameLen)).take (length + 8 - (17 + nameLen))).length := by
    rw [List.length_replicate, List.length_take, List.length_drop]
    omega
  rw [hname, hpayload, hcrcField, hbody, make_of_le hfits]
  simp only [copy_of_length_eq hcopied]
  simp only [Nat.add_sub_cancel_left, Nat.add_sub_add_left, Nat.reduceSub, List.drop_zero,
    Nat.sub_zero, uint32_take_four]
  split_ifs with hcrc
  · exact ⟨_, rfl, rfl⟩
  · exact ⟨_, rfl, rfl⟩

theorem ofChecked_decodeChecked (crc : Bytes → UInt32) (data spare : Bytes) :
    Decoded.ofChecked (decodeChecked crc data spare) = decodeWith crc data := by
  by_cases hheader : data.length < 12
  · rw [decodeChecked, decodeWith, if_pos hheader, if_pos hheader]
    rfl
  · rw [decodeChecked_of_header crc spare (Nat.not_lt.mp hheader)]
    split_ifs with hframe
    · rw [decodeWith, if_neg hheader, if_pos hframe]
      rfl
    · have hannounced : Announced data := ⟨Nat.not_lt.mp hheader, Nat.not_lt.mp hframe⟩
      by_cases hfits : NameFits data
      · obtain ⟨outcome, houtcome, hsame⟩ :=
          decodeFields_of_fits crc spare hannounced hfits
        rw [houtcome, hsame]
      · obtain ⟨panic, hpanic⟩ :=
          decodeFields_of_overlong crc spare hannounced hfits (data.take 8)
        rw [hpanic, Decoded.ofChecked]
        exact ((decodeWith_panics_iff crc data).mpr ⟨hannounced, hfits⟩).symm

theorem decodeChecked_returns_iff (crc : Bytes → UInt32) (data spare : Bytes) :
    (∃ outcome, decodeChecked crc data spare = .ok outcome) ↔
      (Announced data → NameFits data) := by
  have hsame := ofChecked_decodeChecked crc data spare
  have hpanics := decodeWith_panics_iff crc data
  cases hdecode : decodeChecked crc data spare with
  | error panic =>
      rw [hdecode, Decoded.ofChecked] at hsame
      have hoverlong := hpanics.mp hsame.symm
      simp [hoverlong]
  | ok outcome =>
      rw [hdecode] at hsame
      have hreturns : decodeWith crc data ≠ .panics := by
        rw [← hsame]
        cases outcome <;> simp [Decoded.ofChecked]
      refine iff_of_true ⟨outcome, rfl⟩ fun hannounced => ?_
      by_contra hfits
      exact hreturns (hpanics.mpr ⟨hannounced, hfits⟩)

end Checked

end Record

/-! The loops over a file's content. -/

/-- The frame at the head has lengths that agree, unless `Decode` never sees it. -/
def Legible (bytes : Bytes) : Prop :=
  Record.Announced bytes → (uint32 (bytes.drop 8)).toNat ≤ maxLogLength →
    Record.NameFits bytes

instance (bytes : Bytes) : Decidable (Legible bytes) := inferInstanceAs (Decidable (_ → _))

theorem Record.decode_take_panics_iff {bytes : Bytes} (hannounced : Announced bytes) :
    decode (bytes.take (12 + (uint32 (bytes.drop 8)).toNat)) = .panics ↔
      ¬ NameFits bytes := by
  rw [Announced] at hannounced
  have hfield := uint32_drop_take
    (by omega : 8 + 4 ≤ 12 + (uint32 (bytes.drop 8)).toNat) bytes
  have hlength : (bytes.take (12 + (uint32 (bytes.drop 8)).toNat)).length =
      12 + (uint32 (bytes.drop 8)).toNat := by
    rw [List.length_take]
    omega
  rw [decode, decodeWith_panics_iff, Announced, NameFits, NameFits, hlength, hfield]
  by_cases hname : 17 ≤ 12 + (uint32 (bytes.drop 8)).toNat
  · rw [uint32_drop_take hname]
    omega
  · -- A frame too short for the name's length has no room for a name either.
    omega

theorem readFrame_panics_iff (bytes : Bytes) :
    readFrame bytes = .panics ↔ ¬ Legible bytes := by
  unfold readFrame Legible
  dsimp only
  split_ifs with hempty hheader hlimit hshort
  · have hlength : bytes.length = 0 := by
      rw [List.isEmpty_iff.mp hempty, List.length_nil]
    exact iff_of_false (by simp) fun hpanics => hpanics fun hannounced =>
      absurd hannounced.1 (by omega)
  · exact iff_of_false (by simp) fun hpanics => hpanics fun hannounced =>
      absurd hannounced.1 hheader.not_ge
  · exact iff_of_false (by simp) fun hpanics => hpanics fun _ hle =>
      absurd hle hlimit.not_ge
  · exact iff_of_false (by simp) fun hpanics => hpanics fun hannounced =>
      absurd hannounced.2 (by omega)
  · have hannounced : Record.Announced bytes := ⟨by omega, by omega⟩
    have hdecode := Record.decode_take_panics_iff hannounced
    simp only [hannounced, Nat.not_lt.mp hlimit, true_imp_iff, ← hdecode]
    cases Record.decode (bytes.take (12 + (uint32 (bytes.drop 8)).toNat)) <;> simp

inductive Reaches : Bytes → Bytes → Prop
  | here (bytes : Bytes) : Reaches bytes bytes
  | past {bytes rest : Bytes} {rec : Record} {size : Nat}
      (hread : readFrame bytes = .frame rec size) (hrest : Reaches (bytes.drop size) rest) :
      Reaches bytes rest

theorem Reaches.concat {bytes rest : Bytes} (hreaches : Reaches bytes rest) {rec : Record}
    {size : Nat} (hread : readFrame rest = .frame rec size) :
    Reaches bytes (rest.drop size) := by
  induction hreaches with
  | here bytes => exact .past hread (.here _)
  | past hfirst _ ih => exact .past hfirst (ih hread)

theorem Reaches.eq_of_not_frame {bytes rest : Bytes} (hreaches : Reaches bytes rest)
    (hstops : ∀ rec size, readFrame bytes ≠ .frame rec size) : rest = bytes := by
  cases hreaches with
  | here => rfl
  | past hread hlater => exact absurd hread (hstops _ _)

theorem legible_of_readFrame {bytes : Bytes} (hread : readFrame bytes ≠ .panics) :
    Legible bytes := by
  by_contra hillegible
  exact hread ((readFrame_panics_iff bytes).mpr hillegible)

theorem scanSegment_returns_iff (content : Bytes) :
    (∃ scanned, scanSegment content = some scanned) ↔
      ∀ rest, Reaches content rest → Legible rest := by
  fun_induction scanSegment content with
  | case1 content rec size hread ih =>
      have hscan : (∃ scanned, (scanSegment (content.drop size)).map (fun scanned =>
          (rec :: scanned.1, size + scanned.2)) = some scanned) ↔
          ∃ scanned, scanSegment (content.drop size) = some scanned := by
        cases scanSegment (content.drop size) <;> simp
      rw [hscan, ih]
      constructor
      · intro hrest rest hreaches
        cases hreaches with
        | here => exact legible_of_readFrame (by simp [hread])
        | past hframe hlater =>
            rw [hread] at hframe
            cases hframe
            exact hrest rest hlater
      · intro hall rest hreaches
        exact hall rest (.past hread hreaches)
  | case2 content hread =>
      refine iff_of_false (by simp) fun hall => ?_
      exact (readFrame_panics_iff content).mp hread (hall content (.here content))
  | case3 content hframe hpanics =>
      refine iff_of_true ⟨_, rfl⟩ fun rest hreaches => ?_
      rw [hreaches.eq_of_not_frame hframe]
      exact legible_of_readFrame hpanics

/-- `readNext`; no value when it opens more than `fuel` segments. -/
def Reader.readNext (dir : Directory) (segments : List GoString) :
    Nat → Reader → Option Fetch
  | 0, _ => none
  | fuel + 1, reader =>
      match reader.fetch dir segments with
      | .opened next => next.readNext dir segments fuel
      | result => some result

namespace Reader

variable {dir : Directory} {segments : List GoString}

theorem readNext_of_drain {fuel : Nat} {reader : Reader} {drained : List Record × ReadEnd}
    (hdrain : reader.drain dir segments fuel = some drained) :
    ∃ result, reader.readNext dir segments fuel = some result := by
  induction fuel generalizing reader drained with
  | zero => contradiction
  | succ fuel ih =>
      rw [drain] at hdrain
      rw [readNext]
      cases hfetch : reader.fetch dir segments with
      | opened next =>
          rw [hfetch] at hdrain
          exact ih hdrain
      | record | finished | failed | panicked => exact ⟨_, rfl⟩

/-- `readNext` goes on from the first reader to the second: each segment on the way has
been read to its end, and the next one is there. -/
inductive Advances (dir : Directory) (segments : List GoString) : Reader → Reader → Prop
  | here (reader : Reader) : Advances dir segments reader reader
  | onward {reader last : Reader} {content : Bytes} {next : GoString}
      (hcontent : dir.lookup reader.current = some content)
      (hexhausted : content.length ≤ reader.offset)
      (hafter : segmentAfter reader.current segments = some next)
      (hpresent : (dir.lookup next).isSome) (hlast : Advances dir segments ⟨next, 0⟩ last) :
      Advances dir segments reader last

theorem fetch_eq_opened_iff {reader next : Reader} :
    reader.fetch dir segments = .opened next ↔
      next.offset = 0 ∧ segmentAfter reader.current segments = some next.current ∧
        (dir.lookup next.current).isSome ∧
        ∃ content, dir.lookup reader.current = some content ∧
          content.length ≤ reader.offset := by
  obtain ⟨name, offset⟩ := next
  constructor
  · intro hfetch
    obtain ⟨hafter, hzero⟩ := fetch_eq_opened hfetch
    unfold fetch at hfetch
    cases hcontent : dir.lookup reader.current with
    | none => simp [hcontent] at hfetch
    | some content =>
        rw [hcontent, hafter] at hfetch
        dsimp only at hafter hzero hfetch
        cases hread : readFrame (content.drop reader.offset) with
        | eof =>
            have hempty : content.drop reader.offset = [] := by
              by_contra hbytes
              exact readFrame_ne_eof hbytes hread
            rw [hread] at hfetch
            refine ⟨hzero, hafter, ?_, content, rfl, List.drop_eq_nil_iff.mp hempty⟩
            cases hnext : dir.lookup name with
            | none => simp [hnext] at hfetch
            | some following => rfl
        | torn | tooLong | invalid | panics | frame => simp [hread] at hfetch
  · rintro ⟨hzero, hafter, hpresent, content, hcontent, hexhausted⟩
    obtain ⟨following, hnext⟩ := Option.isSome_iff_exists.mp hpresent
    dsimp only at hzero hafter hnext
    rw [fetch, hcontent]
    dsimp only
    rw [List.drop_eq_nil_iff.mpr hexhausted, readFrame_nil]
    dsimp only
    rw [hafter, hzero]
    dsimp only
    rw [hnext]

theorem fetch_eq_panicked_iff {reader : Reader} :
    reader.fetch dir segments = .panicked ↔
      ∃ content, dir.lookup reader.current = some content ∧
        ¬ Legible (content.drop reader.offset) := by
  unfold fetch
  cases hcontent : dir.lookup reader.current with
  | none => simp
  | some content =>
      simp only [Option.some.injEq, exists_eq_left', ← readFrame_panics_iff]
      cases readFrame (content.drop reader.offset) with
      | eof =>
          cases segmentAfter reader.current segments with
          | none => simp
          | some next => cases hnext : dir.lookup next <;> simp [hnext]
      | torn => cases segmentAfter reader.current segments <;> simp
      | tooLong | invalid | panics | frame => simp

theorem readNext_panics_iff {reader : Reader} :
    (∃ fuel, reader.readNext dir segments fuel = some .panicked) ↔
      ∃ last, Advances dir segments reader last ∧
        last.fetch dir segments = .panicked := by
  constructor
  · rintro ⟨fuel, hpanicked⟩
    induction fuel generalizing reader with
    | zero => contradiction
    | succ fuel ih =>
        rw [readNext] at hpanicked
        cases hfetch : reader.fetch dir segments with
        | opened next =>
            rw [hfetch] at hpanicked
            obtain ⟨last, hadvances, hlast⟩ := ih hpanicked
            obtain ⟨hzero, hafter, hpresent, content, hcontent, hexhausted⟩ :=
              fetch_eq_opened_iff.mp hfetch
            rw [show next = ⟨next.current, 0⟩ from hzero ▸ rfl] at hadvances
            exact ⟨last, .onward hcontent hexhausted hafter hpresent hadvances, hlast⟩
        | panicked => exact ⟨reader, .here reader, hfetch⟩
        | record | finished | failed => simp [hfetch] at hpanicked
  · rintro ⟨last, hadvances, hlast⟩
    induction hadvances with
    | here reader => exact ⟨1, by rw [readNext, hlast]⟩
    | @onward reader last content next hcontent hexhausted hafter hpresent _ ih =>
        obtain ⟨fuel, hpanicked⟩ := ih hlast
        have hfetch : reader.fetch dir segments = .opened ⟨next, 0⟩ :=
          fetch_eq_opened_iff.mpr ⟨rfl, hafter, hpresent, content, hcontent, hexhausted⟩
        exact ⟨fuel + 1, by rw [readNext, hfetch]; exact hpanicked⟩

end Reader

/-- `Decode` returns on exactly the bytes whose name ends within the frame; `scanSegment`
returns, and `readNext` does not panic, on exactly the files where every frame the call
comes to is such.  `readNext` always returns if no segment is listed twice. -/
theorem decode_returns_where_lengths_agree (crc : Bytes → UInt32) (data spare content : Bytes)
    (dir : Directory) (segments : List GoString) (reader : Reader) :
    ((∃ outcome, Record.decodeChecked crc data spare = .ok outcome) ↔
      (Record.Announced data → Record.NameFits data)) ∧
    ((∃ scanned, scanSegment content = some scanned) ↔
      ∀ rest, Reaches content rest → Legible rest) ∧
    ((∀ fuel, reader.readNext dir segments fuel ≠ some .panicked) ↔
      ∀ last, reader.Advances dir segments last →
        ∀ content, dir.lookup last.current = some content →
          Legible (content.drop last.offset)) ∧
    (segments.Nodup → ∃ enough, ∀ fuel, enough ≤ fuel →
      ∃ result, reader.readNext dir segments fuel = some result) := by
  refine ⟨Record.decodeChecked_returns_iff crc data spare, scanSegment_returns_iff content,
    ?_, ?_⟩
  · simp only [ne_eq, ← not_exists]
    rw [Reader.readNext_panics_iff]
    simp only [Reader.fetch_eq_panicked_iff, not_exists, not_and, not_not]
  · intro hnodup
    obtain ⟨enough, hends⟩ := Reader.ends hnodup dir reader
    refine ⟨enough, fun fuel hfuel => ?_⟩
    obtain ⟨drained, hdrain⟩ := hends fuel hfuel
    exact Reader.readNext_of_drain hdrain

/-- A segment with one record and a tail of zeros, which a crash may leave. -/
def zeroFilled : Bytes :=
  Record.encode ⟨1, .createQueue, lit "q", []⟩ ++ List.replicate 12 0

theorem zero_filled_tail_panics :
    Record.decodeChecked checksumIEEE (List.replicate 12 0) [] =
        .error (.indexOutOfRange 12 12) ∧
      scanSegment zeroFilled = none ∧
      Reader.readNext ((∅ : Directory).insert (segmentFileName 1) zeroFilled)
        [segmentFileName 1] 1 ⟨segmentFileName 1, 22⟩ = some .panicked := by
  refine ⟨by decide +kernel, ?_, by decide +kernel⟩
  have hillegible : ¬ Legible (List.replicate 12 0) := by decide +kernel
  rw [zeroFilled, scanSegment_cons (by decide), Option.map_eq_none_iff,
    ← Option.not_isSome_iff_eq_none, Option.isSome_iff_exists, scanSegment_returns_iff]
  exact fun hall => hillegible (hall _ (.here _))

/-- A segment with one record and a tail whose lengths agree. -/
def garbageFilled : Bytes :=
  Record.encode ⟨1, .createQueue, lit "q", []⟩ ++
    [7, 7, 7, 7, 7, 7, 7, 7, 10, 0, 0, 0, 7, 1, 0, 0, 0, 7, 7, 7, 7, 7]

theorem agreeing_lengths_return :
    (∃ outcome, Record.decodeChecked checksumIEEE garbageFilled [0] = .ok outcome) ∧
      (∃ scanned, scanSegment (garbageFilled.drop 22) = some scanned) ∧
      ∃ enough, ∀ fuel, enough ≤ fuel → ∃ result,
        Reader.readNext ((∅ : Directory).insert (segmentFileName 1) garbageFilled)
          [segmentFileName 1] fuel ⟨segmentFileName 1, 22⟩ = some result ∧
        result ≠ .panicked := by
  have hlookup : ∀ content, ((∅ : Directory).insert (segmentFileName 1)
      garbageFilled).lookup (segmentFileName 1) = some content → content = garbageFilled := by
    intro content hcontent
    simpa using hcontent.symm
  obtain ⟨hdecode, hscan, hsafe, hreturns⟩ := decode_returns_where_lengths_agree checksumIEEE
    garbageFilled [0] (garbageFilled.drop 22)
    ((∅ : Directory).insert (segmentFileName 1) garbageFilled) [segmentFileName 1]
    ⟨segmentFileName 1, 22⟩
  refine ⟨hdecode.mpr (by decide +kernel), hscan.mpr ?_, ?_⟩
  · intro rest hreaches
    have hinvalid : readFrame (garbageFilled.drop 22) = .invalid := by decide +kernel
    rw [hreaches.eq_of_not_frame fun rec size => by simp [hinvalid]]
    decide +kernel
  · obtain ⟨enough, henough⟩ := hreturns (List.nodup_singleton _)
    refine ⟨enough, fun fuel hfuel => ?_⟩
    obtain ⟨result, hresult⟩ := henough fuel hfuel
    refine ⟨result, hresult, ?_⟩
    rintro rfl
    refine hsafe.mpr ?_ fuel hresult
    intro last hadvances content hcontent
    cases hadvances with
    | here =>
        rw [hlookup content hcontent]
        decide +kernel
    | onward _ _ hafter => simp [segmentAfter] at hafter

end SimonMQ.Durable
