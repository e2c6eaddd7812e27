import SimonMQ.Go.Map

namespace SimonMQ.Go

/-! One flat directory of files, with the operations `os` offers on it. -/

abbrev Directory := GoMap Bytes

def hasSuffix (text suffix : GoString) : Bool := suffix.isSuffixOf text

def trimSuffix (text suffix : GoString) : GoString :=
  if hasSuffix text suffix then text.take (text.length - suffix.length) else text

theorem hasSuffix_append (text suffix : GoString) : hasSuffix (text ++ suffix) suffix := by
  rw [hasSuffix, List.isSuffixOf_iff_suffix]
  exact List.suffix_append text suffix

theorem trimSuffix_append (text suffix : GoString) :
    trimSuffix (text ++ suffix) suffix = text := by
  rw [trimSuffix, if_pos (hasSuffix_append text suffix), List.length_append,
    Nat.add_sub_cancel]
  exact List.take_left' rfl

theorem append_trimSuffix {text suffix : GoString} (hsuffix : hasSuffix text suffix) :
    trimSuffix text suffix ++ suffix = text := by
  rw [hasSuffix, List.isSuffixOf_iff_suffix] at hsuffix
  obtain ⟨front, rfl⟩ := hsuffix
  rw [trimSuffix_append]

theorem getLast?_of_hasSuffix {text suffix : GoString} (hsuffix : hasSuffix text suffix)
    {last : UInt8} (hlast : suffix.getLast? = some last) : text.getLast? = some last := by
  rw [hasSuffix, List.isSuffixOf_iff_suffix] at hsuffix
  obtain ⟨front, rfl⟩ := hsuffix
  rw [List.getLast?_append, hlast, Option.some_or]

namespace Directory

/-- The names of `os.ReadDir` that end in a suffix, sorted. -/
def namesWith (dir : Directory) (suffix : GoString) : List GoString :=
  sortStrings (dir.keys.filter fun name => hasSuffix name suffix).val

/-- `os.OpenFile` with `O_CREATE`: an existing file keeps its content. -/
def openCreate (dir : Directory) (name : GoString) : Directory :=
  match dir.lookup name with
  | some _ => dir
  | none => dir.insert name []

/-- A write through a handle opened with `O_APPEND`.  A handle whose name has
been removed writes to a file no one can open again. -/
def appendTo (dir : Directory) (name : GoString) (bytes : Bytes) : Directory :=
  match dir.lookup name with
  | some content => dir.insert name (content ++ bytes)
  | none => dir

/-- `os.Truncate` to at most the present size. -/
def truncate (dir : Directory) (name : GoString) (size : Nat) : Directory :=
  match dir.lookup name with
  | some content => dir.insert name (content.take size)
  | none => dir

/-- `os.Rename`, replacing the target in one step. -/
def rename (dir : Directory) (source target : GoString) : Directory :=
  match dir.lookup source with
  | some content => (dir.erase source).insert target content
  | none => dir

theorem mem_namesWith {dir : Directory} {suffix name : GoString} :
    name ∈ dir.namesWith suffix ↔
      hasSuffix name suffix ∧ ∃ content, dir.lookup name = some content := by
  rw [namesWith, mem_sortStrings, Finset.mem_val, Finset.mem_filter, Finmap.mem_keys,
    Finmap.mem_iff]
  exact and_comm

theorem namesWith_eq_of_mem_iff {dir : Directory} {suffix : GoString}
    {sorted : List GoString} (hsorted : sorted.Pairwise (· < ·))
    (hmem : ∀ name, (hasSuffix name suffix ∧ ∃ content, dir.lookup name = some content) ↔
      name ∈ sorted) : dir.namesWith suffix = sorted := by
  apply sortStrings_eq_of_mem_iff (Finset.nodup _) hsorted
  intro name
  rw [← hmem, ← mem_namesWith, namesWith, mem_sortStrings]

theorem lookup_openCreate (dir : Directory) (name other : GoString) :
    (dir.openCreate name).lookup other =
      if other = name then some ((dir.lookup name).getD []) else dir.lookup other := by
  unfold openCreate
  cases hname : dir.lookup name with
  | some content =>
      by_cases heq : other = name
      · subst heq
        simpa using hname
      · simp [heq]
  | none => simp [GoMap.lookup_insert_eq]

theorem lookup_appendTo (dir : Directory) (name other : GoString) (bytes : Bytes) :
    (dir.appendTo name bytes).lookup other =
      if other = name then (dir.lookup name).map (· ++ bytes) else dir.lookup other := by
  unfold appendTo
  cases hname : dir.lookup name with
  | some content => simp [GoMap.lookup_insert_eq]
  | none =>
      by_cases heq : other = name
      · subst heq
        simpa using hname
      · simp [heq]

@[simp] theorem appendTo_nil (dir : Directory) (name : GoString) :
    dir.appendTo name [] = dir := by
  apply Finmap.ext_lookup
  intro other
  rw [lookup_appendTo]
  split_ifs with heq
  · subst heq
    simp
  · rfl

theorem lookup_truncate (dir : Directory) (name other : GoString) (size : Nat) :
    (dir.truncate name size).lookup other =
      if other = name then (dir.lookup name).map (·.take size) else dir.lookup other := by
  unfold truncate
  cases hname : dir.lookup name with
  | some content => simp [GoMap.lookup_insert_eq]
  | none =>
      by_cases heq : other = name
      · subst heq
        simpa using hname
      · simp [heq]

theorem lookup_rename {dir : Directory} {source target : GoString} {content : Bytes}
    (hsource : dir.lookup source = some content) (other : GoString) :
    (dir.rename source target).lookup other =
      if other = target then some content
      else if other = source then none else dir.lookup other := by
  simp only [rename, hsource, GoMap.lookup_insert_eq, GoMap.lookup_erase_eq]

end Directory

end SimonMQ.Go
