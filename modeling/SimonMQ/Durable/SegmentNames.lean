import SimonMQ.Durable.Wal

namespace SimonMQ.Durable

open SimonMQ.Go

/-! The segment manager's lists as `refresh` builds them from a directory, and the
order of the segments in them. -/

structure DirEntry where
  name : GoString
  isDir : Bool
  deriving DecidableEq, Repr

/-- What `os.ReadDir` returns: no two entries of a directory have one name. -/
structure DirListing where
  entries : List DirEntry
  nodup : (entries.map DirEntry.name).Nodup

namespace DirListing

def named (listing : DirListing) (suffix : GoString) : List GoString :=
  sortStrings ((listing.entries.filter fun entry =>
    !entry.isDir && hasSuffix entry.name suffix).map DirEntry.name)

/-- `refresh`: the segments and the checkpoint files. -/
def refresh (listing : DirListing) : List GoString × List GoString :=
  (listing.named walSuffix, listing.named ckptSuffix)

def ofDirectory (dir : Directory) : DirListing where
  entries := (sortedKeys dir).map fun name => ⟨name, false⟩
  nodup := by
    rw [List.map_map]
    simpa [Function.comp_def, sortedKeys] using nodup_sortStrings dir.keys.nodup

theorem pairwise_named (listing : DirListing) (suffix : GoString) :
    (listing.named suffix).Pairwise (· < ·) := by
  have hsublist : ((listing.entries.filter fun entry =>
      !entry.isDir && hasSuffix entry.name suffix).map DirEntry.name).Sublist
      (listing.entries.map DirEntry.name) :=
    List.filter_sublist.map DirEntry.name
  have hnodup : (listing.named suffix).Nodup :=
    nodup_sortStrings (Multiset.coe_nodup.mpr (listing.nodup.sublist hsublist))
  have hsorted := pairwise_sortStrings ((listing.entries.filter fun entry =>
    !entry.isDir && hasSuffix entry.name suffix).map DirEntry.name)
  apply (hsorted.and hnodup).imp
  intro left right hpair
  by_contra hnot
  exact hpair.2 (List.le_antisymm hpair.1 (List.not_lt.mp hnot))

theorem refresh_ofDirectory (dir : Directory) :
    (ofDirectory dir).refresh = (dir.namesWith walSuffix, dir.namesWith ckptSuffix) := by
  have hnamed : ∀ suffix, (ofDirectory dir).named suffix = dir.namesWith suffix := by
    intro suffix
    symm
    apply Directory.namesWith_eq_of_mem_iff (pairwise_named _ suffix)
    intro name
    rw [named, mem_sortStrings, Multiset.mem_coe, ofDirectory, List.mem_map]
    simp only [List.mem_filter, List.mem_map, mem_sortedKeys, Finmap.mem_iff]
    constructor
    · rintro ⟨hsuffix, content, hcontent⟩
      exact ⟨⟨name, false⟩, ⟨⟨name, ⟨content, hcontent⟩, rfl⟩, hsuffix⟩, rfl⟩
    · rintro ⟨entry, ⟨⟨found, hfound, rfl⟩, hsuffix⟩, rfl⟩
      exact ⟨hsuffix, hfound⟩
  rw [refresh, hnamed, hnamed]

end DirListing

/-- Segment names carry their first LSN and sort by it, so a segment list is in LSN
order. -/
theorem segment_names_order_like_lsns :
    (∀ lsn : UInt64, firstLSNFromSegmentName (segmentFileName lsn) = some lsn) ∧
    (∀ left right : UInt64, segmentFileName left < segmentFileName right ↔ left < right) ∧
    ∀ listing : DirListing, listing.refresh.1.Pairwise fun earlier later =>
      ∀ left right : UInt64, earlier = segmentFileName left → later = segmentFileName right →
        left < right := by
  refine ⟨firstLSN_segmentFileName, segmentFileName_lt_iff, fun listing => ?_⟩
  apply (listing.pairwise_named walSuffix).imp
  intro earlier later hlt left right hleft hright
  rw [hleft, hright] at hlt
  exact (segmentFileName_lt_iff left right).mp hlt

end SimonMQ.Durable
