import SojebOS.UserIsolation

/-!
# `map_page` as a point update of the address translation

`map_page` may map any page to any frame, a page table's among them. The tables themselves stay
in frames of their own, so that each call changes the walk of one page.
-/
namespace PageMapping

open ByteMemory MachineWord PageFrames Paging PagingWalks PagingRefinement PagingInit
open UserIsolation (bootImage)

/-- The states that calls of `map_page` and `alloc_frame` lead to from boot. -/
inductive MappingReachable (k : KernelImage) : State → Prop where
  | init (memory : Bytes) : MappingReachable k (pagingInit k memory)
  | map {s} (physaddr virtualaddr flags : UInt32) (h : MappingReachable k s) :
      MappingReachable k (mapPage k s physaddr.toNat virtualaddr.toNat flags.toNat)
  | alloc {s} (h : MappingReachable k s) : MappingReachable k (allocFrame s).2

/-- The entry that `map_page` writes. -/
def mappedEntry (physaddr flags : ℕ) : ℕ := (physaddr &&& 0xFFFFF000) ||| (flags &&& 0xFFF)

/-- The directory slot of the address has no table. -/
def TableMissing (k : KernelImage) (s : State) (virtualaddr : ℕ) : Prop :=
  directoryEntry k s (virtualaddr >>> 22) &&& pagePresent = 0

def WalksAre (k : KernelImage) (s : State) (walks : ℕ → ℕ) : Prop :=
  ∀ page < 2 ^ 20, walk k s page = walks page

/-- What `map_page` does to the walks: the walk of one page is the new entry, unless a table is
needed and `alloc_frame` has none. -/
structure PointUpdate (k : KernelImage) (s : State) (physaddr virtualaddr flags : UInt32) :
    Prop where
  updated : ¬(TableMissing k s virtualaddr.toNat ∧ (allocFrame s).1 = 0) →
    WalksAre k (mapPage k s physaddr.toNat virtualaddr.toNat flags.toNat) fun page =>
      if page = virtualaddr.toNat / pageSize then mappedEntry physaddr.toNat flags.toNat
      else walk k s page
  refused : TableMissing k s virtualaddr.toNat → (allocFrame s).1 = 0 →
    WalksAre k (mapPage k s physaddr.toNat virtualaddr.toNat flags.toNat) (walk k s)

section Steps

variable {k : KernelImage} {s s' : State} {d t page v phys flags : ℕ}

theorem mappedEntry_lt (hphys : phys < 2 ^ 32) : mappedEntry phys flags < 2 ^ 32 := by
  have hlow : flags &&& 0xFFF < 2 ^ 32 := lt_of_le_of_lt Nat.and_le_right (by norm_num)
  exact Nat.or_lt_two_pow (lt_of_le_of_lt Nat.and_le_left hphys) hlow

theorem tableMissing_iff (hv : v < 2 ^ 32) :
    TableMissing k s v ↔ tableFrame k s (v / 4096 / 1024) = none := by
  have hslot : v / 4096 / 1024 < 1024 := by omega
  rw [TableMissing, directory_index, tableFrame]
  by_cases hp : directoryEntry k s (v / 4096 / 1024) &&& pagePresent = 0
  · exact iff_of_true hp (if_neg fun h => h.2 hp)
  · rw [if_pos ⟨hslot, hp⟩]
    exact iff_of_false hp (Option.some_ne_none _)

theorem bitmapSet_apart (h : TablesApart k s) (f : ℕ) : TablesApart k (bitmapSet s f) where
  kept_held := by
    intro g hg
    rw [space_bitmapSet]
    exact Set.mem_insert_of_mem f (h.kept_held g hg)
  held := by
    intro d t ht
    rw [space_bitmapSet]
    exact Set.mem_insert_of_mem f (h.held d t ht)
  injective := h.injective
  directory_apart := h.directory_apart

theorem allocFrame_apart (h : TablesApart k s) :
    TablesApart k (allocFrame s).2 ∧ WalksAre k (allocFrame s).2 (walk k s) := by
  rcases allocFrame_space k s with ⟨he, -⟩ | ⟨f, -, he⟩
  · rw [he]
    exact ⟨h, fun _ _ => rfl⟩
  · rw [he]
    exact ⟨bitmapSet_apart h f, fun _ _ => rfl⟩

theorem setTableEntry_apart (h : TablesApart k s) (ht : tableFrame k s (page / 1024) = some t) :
    TablesApart k (setTableEntry s (4096 * t) (page % 1024) v) := by
  have htables : tableFrame k (setTableEntry s (4096 * t) (page % 1024) v) = tableFrame k s :=
    setTableEntry_tableFrame fun e => h.directory_apart _ (e ▸ ht)
  constructor
  · exact h.kept_held
  · rw [htables]
    exact h.held
  · rw [htables]
    exact h.injective
  · rw [htables]
    exact h.directory_apart

theorem attachTable_apart (h : TablesApart k s) (hd : d < 1024) (hnone : tableFrame k s d = none)
    (ht : t ∉ (space k s).held) :
    TablesApart k (attachTable k (bitmapSet s t) d (4096 * t)) ∧
      tableFrame k (attachTable k (bitmapSet s t) d (4096 * t)) d = some t ∧
      WalksAre k (attachTable k (bitmapSet s t) d (4096 * t)) (walk k s) := by
  have hmarked := bitmapSet_apart h t
  have hdir : k.directoryFrame ≠ t := fun e => ht (h.kept_held t (e ▸ k.directory_kept))
  have htable : ∀ d, tableFrame k s d ≠ some t := fun d e => ht (h.held d t e)
  have htables := attachTable_tableFrame (s := bitmapSet s t) hd (frame_lt ht) hdir
  refine ⟨⟨?_, ?_, ?_, ?_⟩, ?_, ?_⟩
  · exact hmarked.kept_held
  · intro d' t' ht'
    rw [htables] at ht'
    rcases AddressSpace.update_some ht' with ⟨-, rfl⟩ | hold
    · change t ∈ (space k (bitmapSet s t)).held
      rw [space_bitmapSet]
      exact Set.mem_insert t _
    · exact hmarked.held d' t' hold
  · rw [htables]
    exact AddressSpace.update_injective h.injective htable
  · intro d' e
    rw [htables] at e
    rcases AddressSpace.update_some e with ⟨-, e'⟩ | hold
    · exact hdir e'.symm
    · exact h.directory_apart d' hold
  · rw [htables, Function.update_self]
  · exact fun q hq => attachTable_walk hmarked hd hnone (frame_lt ht) hdir htable hq

/-- Where the slot has a table, or a frame becomes one, the walk of the one page changes. -/
theorem mapPage_mapped (h : TablesApart k s) (hphys : phys < 2 ^ 32) (hv : v < 2 ^ 32)
    (hroom : ¬(TableMissing k s v ∧ (allocFrame s).1 = 0)) :
    TablesApart k (mapPage k s phys v flags) ∧
      WalksAre k (mapPage k s phys v flags) fun page =>
        if page = v / 4096 then mappedEntry phys flags else walk k s page := by
  have hpage : v / 4096 < 2 ^ 20 := by omega
  have hslot : v / 4096 / 1024 < 1024 := by omega
  have hword : mappedEntry phys flags < 2 ^ 32 := mappedEntry_lt hphys
  rw [tableMissing_iff hv] at hroom
  cases ht : tableFrame k s (v / 4096 / 1024) with
  | some t =>
    rw [mapPage_present ht]
    exact ⟨setTableEntry_apart h ht, (setTableEntry_walk h ht hpage hword).2⟩
  | none =>
    have hframe : ¬(allocFrame s).1 = 0 := fun he => hroom ⟨ht, he⟩
    rw [mapPage_absent hv ht, if_neg hframe]
    rcases allocFrame_space k s with ⟨he, -⟩ | ⟨f, hf, he⟩
    · rw [he] at hframe
      exact absurd rfl hframe
    · obtain ⟨hapart, htable, hwalk⟩ := attachTable_apart h hslot ht hf
      rw [he]
      refine ⟨setTableEntry_apart hapart htable, fun q hq => ?_⟩
      refine ((setTableEntry_walk hapart htable hpage hword).2 q hq).trans ?_
      rw [hwalk q hq]

theorem mapPage_unmapped (h : TablesApart k s) (hv : v < 2 ^ 32)
    (hmiss : TableMissing k s v) (hnull : (allocFrame s).1 = 0) :
    TablesApart k (mapPage k s phys v flags) ∧
      WalksAre k (mapPage k s phys v flags) (walk k s) := by
  rw [mapPage_absent hv ((tableMissing_iff hv).mp hmiss), if_pos hnull]
  exact allocFrame_apart h

theorem reachable_apart (h : MappingReachable k s) : TablesApart k s := by
  induction h with
  | init memory => exact (pagingInit_sound k memory).tablesApart
  | @map s phys v flags _ ih =>
    by_cases hroom : TableMissing k s v.toNat ∧ (allocFrame s).1 = 0
    · exact (mapPage_unmapped ih v.toNat_lt hroom.1 hroom.2).1
    · exact (mapPage_mapped ih phys.toNat_lt v.toNat_lt hroom).1
  | alloc _ ih => exact (allocFrame_apart ih).1

/-- `map_page` changes the walk of its page only, and none when it finds no frame for a table. -/
theorem map_page_point_update (h : MappingReachable k s) (physaddr virtualaddr flags : UInt32) :
    PointUpdate k s physaddr virtualaddr flags := by
  have hapart := reachable_apart h
  constructor
  · intro hroom
    exact (mapPage_mapped hapart physaddr.toNat_lt virtualaddr.toNat_lt hroom).2
  · intro hmiss hnull
    exact (mapPage_unmapped hapart virtualaddr.toNat_lt hmiss hnull).2

theorem map_page_point_update_boot :
    PointUpdate bootImage (pagingInit bootImage fun _ => 0) 0x600000 0x1000000 7 :=
  map_page_point_update (.init fun _ => 0) 0x600000 0x1000000 7

end Steps

end PageMapping
