import SimonMQ.Durable.Wal

namespace SimonMQ.Durable

open SimonMQ.Go

/-! How the segment files of a directory spell one numbered sequence of records:
closed segments, each named by the LSN of its first record, then the active one,
which may end in the bytes of an append that has not finished. -/

def segName (position : Nat) : GoString := segmentFileName (UInt64.ofNat position)

theorem toNat_ofNat_lsn {position : Nat} (hposition : position < 2 ^ 64) :
    (UInt64.ofNat position).toNat = position :=
  UInt64.toNat_ofNat_of_lt' hposition

theorem segName_lt_iff_ofNat {left right : Nat} :
    segName left < segName right ↔ UInt64.ofNat left < UInt64.ofNat right := by
  rw [segName, segName, segmentFileName_lt_iff]

theorem segName_lt_iff {left right : Nat} (hleft : left < 2 ^ 64)
    (hright : right < 2 ^ 64) : segName left < segName right ↔ left < right := by
  rw [segName_lt_iff_ofNat, UInt64.lt_iff_toNat_lt, toNat_ofNat_lsn hleft,
    toNat_ofNat_lsn hright]

theorem segName_inj {left right : Nat} (hleft : left < 2 ^ 64) (hright : right < 2 ^ 64)
    (heq : segName left = segName right) : left = right := by
  rw [← toNat_ofNat_lsn hleft, ← toNat_ofNat_lsn hright, segmentFileName_inj heq]

theorem hasSuffix_segName (position : Nat) : hasSuffix (segName position) walSuffix :=
  hasSuffix_segmentFileName _

theorem firstLSN_segName (position : Nat) :
    firstLSNFromSegmentName (segName position) = some (UInt64.ofNat position) :=
  firstLSN_segmentFileName _

theorem segName_toNat (lsn : UInt64) : segName lsn.toNat = segmentFileName lsn := by
  rw [segName, UInt64.ofNat_toNat]

theorem segmentFileName_one : segmentFileName 1 = segName 1 := (segName_toNat 1).symm

-- Two positions are never compared by spelling their names out.
attribute [irreducible] segName

def Numbered (first : Nat) : List Record → Prop
  | [] => True
  | rec :: records => rec.lsn.toNat = first ∧ Numbered (first + 1) records

theorem numbered_append {first : Nat} {left right : List Record} :
    Numbered first (left ++ right) ↔
      Numbered first left ∧ Numbered (first + left.length) right := by
  induction left generalizing first with
  | nil => simp [Numbered]
  | cons rec left ih =>
      have hshift : first + 1 + left.length = first + (left.length + 1) := by omega
      simp only [List.cons_append, Numbered, ih, List.length_cons, hshift, and_assoc]

theorem Numbered.bounds {first : Nat} {records : List Record}
    (hnumbered : Numbered first records) {rec : Record} (hmem : rec ∈ records) :
    first ≤ rec.lsn.toNat ∧ rec.lsn.toNat < first + records.length := by
  induction records generalizing first with
  | nil => simp at hmem
  | cons head records ih =>
      rw [List.length_cons]
      rcases List.mem_cons.mp hmem with rfl | htail
      · have := hnumbered.1
        omega
      · have := ih hnumbered.2 htail
        omega

theorem Numbered.pairwise {first : Nat} {records : List Record}
    (hnumbered : Numbered first records) :
    records.Pairwise fun left right => left.lsn < right.lsn := by
  induction records generalizing first with
  | nil => exact .nil
  | cons rec records ih =>
      refine List.pairwise_cons.mpr ⟨fun other hmem => ?_, ih hnumbered.2⟩
      have := (hnumbered.2.bounds hmem).1
      have := hnumbered.1
      rw [UInt64.lt_iff_toNat_lt]
      omega

private theorem lookup_cons_of_ne {key other : GoString} (hne : key ≠ other)
    (value : Bytes) (entries : List (GoString × Bytes)) :
    ((other, value) :: entries).lookup key = entries.lookup key := by
  rw [List.lookup_cons, beq_eq_false_iff_ne.mpr hne]

def closedFiles : Nat → List (List Record) → List (GoString × Bytes)
  | _, [] => []
  | base, records :: rest =>
      (segName base, frames records) :: closedFiles (base + records.length) rest

def segmentFiles (base : Nat) (closed : List (List Record)) (active : List Record)
    (tail : Bytes) : List (GoString × Bytes) :=
  closedFiles base closed ++
    [(segName (base + closed.flatten.length), frames active ++ tail)]

def segmentNames (base : Nat) (closed : List (List Record)) : List GoString :=
  (closedFiles base closed).map Prod.fst ++ [segName (base + closed.flatten.length)]

/-- The directory's segment files hold exactly the given records. -/
structure Layout (dir : Directory) (base : Nat) (closed : List (List Record))
    (active : List Record) (tail : Bytes) : Prop where
  base_pos : 0 < base
  bound : base + (closed.flatten ++ active).length < 2 ^ 64
  numbered : Numbered base (closed.flatten ++ active)
  nonempty : ∀ records ∈ closed, records ≠ []
  content : ∀ name, hasSuffix name walSuffix →
    dir.lookup name = (segmentFiles base closed active tail).lookup name

theorem closedFiles_append (base : Nat) (left right : List (List Record)) :
    closedFiles base (left ++ right) =
      closedFiles base left ++ closedFiles (base + left.flatten.length) right := by
  induction left generalizing base with
  | nil => simp [closedFiles]
  | cons records left ih =>
      simp only [List.cons_append, closedFiles, ih, List.flatten_cons, List.length_append,
        Nat.add_assoc]

theorem mem_closedNames {base : Nat} {closed : List (List Record)}
    (hnonempty : ∀ records ∈ closed, records ≠ []) {name : GoString}
    (hmem : name ∈ (closedFiles base closed).map Prod.fst) :
    ∃ position, name = segName position ∧ base ≤ position ∧
      position < base + closed.flatten.length := by
  induction closed generalizing base with
  | nil => simp [closedFiles] at hmem
  | cons records closed ih =>
      have hpos : 0 < records.length :=
        List.length_pos_iff.mpr (hnonempty records List.mem_cons_self)
      simp only [closedFiles, List.map_cons, List.mem_cons] at hmem
      rw [List.flatten_cons, List.length_append]
      rcases hmem with rfl | htail
      · exact ⟨base, rfl, Nat.le_refl _, by omega⟩
      · obtain ⟨position, hname, hlow, hhigh⟩ :=
          ih (fun other hother => hnonempty other (List.mem_cons_of_mem _ hother)) htail
        exact ⟨position, hname, by omega, by omega⟩

theorem lookup_closedFiles_eq_none {base position : Nat} {closed : List (List Record)}
    (hnonempty : ∀ records ∈ closed, records ≠ [])
    (hlow : base + closed.flatten.length ≤ position) (hposition : position < 2 ^ 64) :
    (closedFiles base closed).lookup (segName position) = none := by
  rw [List.lookup_eq_none_iff]
  intro entry hentry
  rw [bne_iff_ne]
  intro heq
  obtain ⟨other, hother, _, hhigh⟩ :=
    mem_closedNames hnonempty (List.mem_map_of_mem (f := Prod.fst) hentry)
  have := segName_inj hposition (by omega) (heq.trans hother)
  omega

namespace Layout

variable {dir : Directory} {base : Nat} {closed : List (List Record)}
  {active : List Record} {tail : Bytes}

theorem active_lt (hlayout : Layout dir base closed active tail) :
    base + closed.flatten.length < 2 ^ 64 := by
  have := hlayout.bound
  rw [List.length_append] at this
  omega

theorem names_pairwise (hlayout : Layout dir base closed active tail) :
    (segmentNames base closed).Pairwise (· < ·) := by
  have hbound := hlayout.active_lt
  have hnonempty := hlayout.nonempty
  clear hlayout
  rw [segmentNames, List.pairwise_append]
  refine ⟨?_, List.pairwise_singleton _ _, ?_⟩
  · induction closed generalizing base with
    | nil => exact .nil
    | cons records closed ih =>
        have hpos : 0 < records.length :=
          List.length_pos_iff.mpr (hnonempty records List.mem_cons_self)
        have hrest : ∀ other ∈ closed, other ≠ [] :=
          fun other hother => hnonempty other (List.mem_cons_of_mem _ hother)
        rw [List.flatten_cons, List.length_append] at hbound
        rw [closedFiles, List.map_cons, List.pairwise_cons]
        refine ⟨fun name hmem => ?_, ih (by omega) hrest⟩
        obtain ⟨position, rfl, hlow, hhigh⟩ := mem_closedNames hrest hmem
        exact (segName_lt_iff (by omega) (by omega)).mpr (by omega)
  · intro name hmem last hlast
    obtain ⟨position, rfl, _, hhigh⟩ := mem_closedNames hnonempty hmem
    rw [List.mem_singleton.mp hlast]
    exact (segName_lt_iff (by omega) hbound).mpr hhigh

theorem lookup_active (hlayout : Layout dir base closed active tail) :
    dir.lookup (segName (base + closed.flatten.length)) = some (frames active ++ tail) := by
  rw [hlayout.content _ (hasSuffix_segName _), segmentFiles, List.lookup_append,
    lookup_closedFiles_eq_none hlayout.nonempty (Nat.le_refl _) hlayout.active_lt]
  simp

theorem lookup_behind (hlayout : Layout dir base closed active tail) {position : Nat}
    (hlow : base + closed.flatten.length < position) (hposition : position < 2 ^ 64) :
    dir.lookup (segName position) = none := by
  have hne : segName position ≠ segName (base + closed.flatten.length) := by
    intro heq
    have := segName_inj hposition hlayout.active_lt heq
    omega
  rw [hlayout.content _ (hasSuffix_segName _), segmentFiles, List.lookup_append,
    lookup_closedFiles_eq_none hlayout.nonempty (Nat.le_of_lt hlow) hposition,
    lookup_cons_of_ne hne]
  rfl

theorem lookup_closed {before after : List (List Record)} {records : List Record}
    (hlayout : Layout dir base (before ++ records :: after) active tail) :
    dir.lookup (segName (base + before.flatten.length)) = some (frames records) := by
  have hlt := hlayout.active_lt
  have hbefore : ∀ other ∈ before, other ≠ [] :=
    fun other hother => hlayout.nonempty other (List.mem_append_left _ hother)
  rw [List.flatten_append, List.length_append] at hlt
  rw [hlayout.content _ (hasSuffix_segName _), segmentFiles, closedFiles_append,
    List.append_assoc, List.lookup_append,
    lookup_closedFiles_eq_none hbefore (Nat.le_refl _) (by omega)]
  simp [closedFiles]

theorem namesWith_walSuffix (hlayout : Layout dir base closed active tail) :
    dir.namesWith walSuffix = segmentNames base closed := by
  apply Directory.namesWith_eq_of_mem_iff hlayout.names_pairwise
  intro name
  have hkeys : segmentNames base closed =
      (segmentFiles base closed active tail).map Prod.fst := by
    simp [segmentNames, segmentFiles]
  rw [hkeys]
  constructor
  · rintro ⟨hsuffix, content, hcontent⟩
    rw [hlayout.content name hsuffix, List.lookup_eq_some_iff] at hcontent
    obtain ⟨before, after, heq, _⟩ := hcontent
    rw [heq]
    simp
  · intro hmem
    have hsuffix : hasSuffix name walSuffix := by
      rw [← hkeys, segmentNames, List.mem_append, List.mem_singleton] at hmem
      rcases hmem with hclosed | rfl
      · obtain ⟨position, rfl, _⟩ := mem_closedNames hlayout.nonempty hclosed
        exact hasSuffix_segName position
      · exact hasSuffix_segName _
    refine ⟨hsuffix, ?_⟩
    rw [hlayout.content name hsuffix]
    cases hlookup : (segmentFiles base closed active tail).lookup name with
    | some content => exact ⟨content, rfl⟩
    | none =>
        obtain ⟨entry, hentry, rfl⟩ := List.mem_map.mp hmem
        have := List.lookup_eq_none_iff.mp hlookup entry hentry
        simp at this

theorem congr (hlayout : Layout dir base closed active tail) {other : Directory}
    (hother : ∀ name, hasSuffix name walSuffix → other.lookup name = dir.lookup name) :
    Layout other base closed active tail :=
  { hlayout with
    content := fun name hsuffix =>
      (hother name hsuffix).trans (hlayout.content name hsuffix) }

/-! What the writer does to the layout. -/

theorem setActive (hlayout : Layout dir base closed active tail) {other : Directory}
    {active' : List Record} {tail' : Bytes}
    (hbound : base + (closed.flatten ++ active').length < 2 ^ 64)
    (hnumbered : Numbered base (closed.flatten ++ active'))
    (hother : ∀ name, other.lookup name =
      if name = segName (base + closed.flatten.length) then some (frames active' ++ tail')
      else dir.lookup name) :
    Layout other base closed active' tail' where
  base_pos := hlayout.base_pos
  bound := hbound
  numbered := hnumbered
  nonempty := hlayout.nonempty
  content := by
    intro name hsuffix
    rw [hother]
    split_ifs with hactive
    · rw [hactive, segmentFiles, List.lookup_append,
        lookup_closedFiles_eq_none hlayout.nonempty (Nat.le_refl _) hlayout.active_lt]
      simp
    · rw [hlayout.content name hsuffix, segmentFiles, segmentFiles, List.lookup_append,
        List.lookup_append, lookup_cons_of_ne hactive, lookup_cons_of_ne hactive]

theorem extendTail (hlayout : Layout dir base closed active tail) (bytes : Bytes) :
    Layout (dir.appendTo (segName (base + closed.flatten.length)) bytes)
      base closed active (tail ++ bytes) := by
  apply hlayout.setActive hlayout.bound hlayout.numbered
  intro name
  rw [Directory.lookup_appendTo, hlayout.lookup_active]
  simp

theorem closeFrame {rec : Record}
    (hlayout : Layout dir base closed active rec.encode)
    (hlsn : rec.lsn.toNat = base + (closed.flatten ++ active).length)
    (hbound : base + (closed.flatten ++ active).length + 1 < 2 ^ 64) :
    Layout dir base closed (active ++ [rec]) [] := by
  apply hlayout.setActive
  · rw [← List.append_assoc, List.length_append, List.length_singleton]
    omega
  · rw [← List.append_assoc, numbered_append]
    exact ⟨hlayout.numbered, hlsn, trivial⟩
  · intro name
    split_ifs with hactive
    · rw [hactive, hlayout.lookup_active]
      simp
    · rfl

theorem dropTail (hlayout : Layout dir base closed active tail) :
    Layout (dir.truncate (segName (base + closed.flatten.length)) (frames active).length)
      base closed active [] := by
  apply hlayout.setActive hlayout.bound hlayout.numbered
  intro name
  rw [Directory.lookup_truncate, hlayout.lookup_active]
  simp

/-- A roll of an empty segment: the new name is the old one. -/
theorem rollEmpty (hlayout : Layout dir base closed [] []) :
    Layout (dir.openCreate (segName (base + closed.flatten.length))) base closed [] [] := by
  apply hlayout.congr
  intro name _
  rw [Directory.lookup_openCreate, hlayout.lookup_active]
  split_ifs with hactive
  · rw [hactive, hlayout.lookup_active]
    rfl
  · rfl

theorem rollFull (hlayout : Layout dir base closed active []) (hnonempty : active ≠ []) :
    Layout (dir.openCreate (segName (base + (closed.flatten ++ active).length))) base
      (closed ++ [active]) [] [] := by
  have hpos : 0 < active.length := List.length_pos_iff.mpr hnonempty
  have hbound := hlayout.bound
  have hflatten : (closed ++ [active]).flatten = closed.flatten ++ active := by simp
  have hnone : dir.lookup (segName (base + (closed.flatten ++ active).length)) = none :=
    hlayout.lookup_behind (by rw [List.length_append]; omega) hbound
  refine ⟨hlayout.base_pos, ?_, ?_, ?_, ?_⟩
  · simpa [hflatten] using hbound
  · simpa [hflatten] using hlayout.numbered
  · intro records hmem
    rcases List.mem_append.mp hmem with hclosed | hactive
    · exact hlayout.nonempty records hclosed
    · rw [List.mem_singleton.mp hactive]
      exact hnonempty
  · intro name hsuffix
    rw [Directory.lookup_openCreate, hnone, segmentFiles, hflatten, closedFiles_append]
    split_ifs with hnew
    · have hold : (closedFiles base closed).lookup
          (segName (base + (closed.flatten ++ active).length)) = none :=
        lookup_closedFiles_eq_none hlayout.nonempty
          (by rw [List.length_append]; omega) hbound
      have hactive : segName (base + (closed.flatten ++ active).length) ≠
          segName (base + closed.flatten.length) := by
        intro heq
        have := segName_inj hbound hlayout.active_lt heq
        rw [List.length_append] at this
        omega
      rw [hnew, List.lookup_append, List.lookup_append, hold, closedFiles,
        lookup_cons_of_ne hactive]
      simp [closedFiles]
    · rw [hlayout.content name hsuffix, segmentFiles, List.lookup_append,
        List.lookup_append, List.lookup_append, lookup_cons_of_ne hnew, closedFiles,
        closedFiles]
      simp

theorem roll (hlayout : Layout dir base closed active []) :
    ∃ closed' active',
      Layout (dir.openCreate (segName (base + (closed.flatten ++ active).length)))
        base closed' active' [] ∧
      closed'.flatten ++ active' = closed.flatten ++ active ∧
      base + closed'.flatten.length = base + (closed.flatten ++ active).length ∧
      active' = [] := by
  by_cases hempty : active = []
  · subst hempty
    refine ⟨closed, [], ?_, rfl, by simp, rfl⟩
    rw [List.append_nil]
    exact hlayout.rollEmpty
  · exact ⟨closed ++ [active], [], hlayout.rollFull hempty, by simp, by simp, rfl⟩

theorem dropOldest {records : List Record}
    (hlayout : Layout dir base (records :: closed) active tail) :
    Layout (dir.erase (segName base)) (base + records.length) closed active tail := by
  have hrecords : 0 < records.length :=
    List.length_pos_iff.mpr (hlayout.nonempty records List.mem_cons_self)
  have hbound := hlayout.bound
  have hnumbered := hlayout.numbered
  rw [List.flatten_cons, List.append_assoc, List.length_append] at hbound
  rw [List.flatten_cons, List.append_assoc, numbered_append] at hnumbered
  refine ⟨?_, by omega, hnumbered.2, ?_, ?_⟩
  · have := hlayout.base_pos
    omega
  · exact fun other hother => hlayout.nonempty other (List.mem_cons_of_mem _ hother)
  · intro name hsuffix
    have hfiles : segmentFiles base (records :: closed) active tail =
        (segName base, frames records) ::
          segmentFiles (base + records.length) closed active tail := by
      simp [segmentFiles, closedFiles, Nat.add_assoc]
    rw [GoMap.lookup_erase_eq, hlayout.content name hsuffix, hfiles]
    split_ifs with holdest
    · have hothers : ∀ entry ∈ segmentFiles (base + records.length) closed active tail,
          segName base != entry.1 := by
        intro entry hentry
        have hmem : entry.1 ∈ segmentNames (base + records.length) closed := by
          have := List.mem_map_of_mem (f := Prod.fst) hentry
          simpa [segmentNames, segmentFiles] using this
        have hlt : segName base < entry.1 := by
          have hpairwise := hlayout.names_pairwise
          have hnames : segmentNames base (records :: closed) =
              segName base :: segmentNames (base + records.length) closed := by
            simp [segmentNames, closedFiles, Nat.add_assoc]
          rw [hnames] at hpairwise
          exact (List.pairwise_cons.mp hpairwise).1 _ hmem
        rw [bne_iff_ne]
        intro heq
        rw [← heq] at hlt
        exact List.lt_irrefl _ hlt
      rw [holdest, eq_comm, List.lookup_eq_none_iff]
      exact hothers
    · rw [lookup_cons_of_ne holdest]

end Layout

theorem layout_fresh {dir : Directory}
    (hempty : ∀ name, hasSuffix name walSuffix → dir.lookup name = none) :
    Layout (dir.openCreate (segName 1)) 1 [] [] [] where
  base_pos := by omega
  bound := by decide
  numbered := trivial
  nonempty := by simp
  content := by
    intro name hsuffix
    rw [Directory.lookup_openCreate, hempty _ (hasSuffix_segName 1), hempty name hsuffix]
    split_ifs with hfirst
    · simp [hfirst, segmentFiles, closedFiles]
    · have hname : name ≠ segName (1 + ([] : List (List Record)).flatten.length) := hfirst
      rw [segmentFiles, closedFiles, List.nil_append, lookup_cons_of_ne hname]
      rfl

theorem Numbered.next_lsn {first : Nat} {records : List Record}
    (hnumbered : Numbered first records) (hbound : first + records.length < 2 ^ 64) :
    Wal.lsnAfter records (UInt64.ofNat first) =
      UInt64.ofNat (first + records.length) := by
  rcases List.eq_nil_or_concat records with rfl | ⟨init, rec, rfl⟩
  · rfl
  · have hlsn : rec.lsn.toNat = first + init.length := by
      rw [List.concat_eq_append, numbered_append] at hnumbered
      exact hnumbered.2.1
    rw [List.concat_eq_append, List.length_append, List.length_singleton] at hbound
    have hlast : (init ++ [rec]).getLast? = some rec := List.getLast?_concat
    have hone : (1 : UInt64).toNat = 1 := rfl
    simp only [List.concat_eq_append, Wal.lsnAfter, hlast, List.length_append,
      List.length_singleton]
    apply UInt64.toNat_inj.mp
    rw [UInt64.toNat_add, hlsn, hone, toNat_ofNat_lsn (by omega)]
    omega

theorem Layout.openDir_scanned {dir : Directory} {base : Nat} {closed : List (List Record)}
    {active kept : List Record} {tail : Bytes}
    (hlayout : Layout dir base closed active tail)
    (hscan : scanSegment (frames active ++ tail) = some (kept, (frames kept).length))
    (hkept : kept <+: active) (maxSegSize : Int) (mode : Mode) :
    Wal.openDir dir maxSegSize mode = .ok {
      dir := dir.truncate (segName (base + closed.flatten.length)) (frames kept).length
      segments := segmentNames base closed
      file := segName (base + closed.flatten.length)
      fileOpen := true
      currentSize := (frames kept).length
      maxSegSize
      nextLSN := UInt64.ofNat (base + (closed.flatten ++ kept).length)
      mode } := by
  have hlast : (segmentNames base closed).getLast? =
      some (segName (base + closed.flatten.length)) := by
    simp only [segmentNames, List.getLast?_append, List.getLast?_singleton,
      Option.some_or]
  have hnumbered : Numbered (base + closed.flatten.length) kept := by
    obtain ⟨rest, rfl⟩ := hkept
    exact (numbered_append.mp (numbered_append.mp hlayout.numbered).2).1
  have hnext := hnumbered.next_lsn (by
    have := hlayout.bound
    have := hkept.length_le
    rw [List.length_append] at *
    omega)
  rw [Wal.openDir, hlayout.namesWith_walSuffix, Wal.recover, hlast]
  simp only [hlayout.lookup_active, hscan, firstLSN_segName]
  rw [hnext, List.length_append, Nat.add_assoc]

theorem Layout.openDir {dir : Directory} {base : Nat} {closed : List (List Record)}
    {active : List Record} {tail : Bytes} (hlayout : Layout dir base closed active tail)
    (hfits : ∀ rec ∈ active, rec.Fits) (htorn : Torn tail) (maxSegSize : Int)
    (mode : Mode) :
    Wal.openDir dir maxSegSize mode = .ok {
      dir := dir.truncate (segName (base + closed.flatten.length)) (frames active).length
      segments := segmentNames base closed
      file := segName (base + closed.flatten.length)
      fileOpen := true
      currentSize := (frames active).length
      maxSegSize
      nextLSN := UInt64.ofNat (base + (closed.flatten ++ active).length)
      mode } :=
  hlayout.openDir_scanned (scanSegment_frames hfits htorn) List.prefix_rfl maxSegSize mode

end SimonMQ.Durable
