import SojebOS.FrameSupply
import SojebOS.KernelMapping

/-!
# Frames that the kernel accesses at their physical addresses

`paging_map_user_memory` clears each frame, and `map_page` each table, at its physical
address, which only the identity map of the first 16 MB makes reachable. Frames are handed
out from the lowest up and never given back, so the frames of a run are the ones that follow
the kernel's.
-/
namespace DirectAccess

open ByteMemory PageFrames Paging PagingWalks PagingRefinement PagingInit UserIsolation
open KernelMapping FrameSupply

abbrev identityEnd : ℕ := 16 * 1024 * 1024

/-- The page table that `map_page` clears or updates. -/
def tablesTouched (k : KernelImage) (s : State) (virtualaddr : ℕ) : List ℕ :=
  let pdIdx := virtualaddr >>> 22
  if directoryEntry k s pdIdx &&& pagePresent ≠ 0 then [directoryEntry k s pdIdx &&& 0xFFFFF000]
  else
    let newTable := allocFrame s
    if newTable.1 = 0 then [] else [newTable.1]

/-- The physical addresses of the frames that a round of `paging_map_user_memory` writes to. -/
def framesTouched (k : KernelImage) (s : State) (vaddr : ℕ) : List ℕ :=
  let frame := allocFrame s
  if frame.1 = 0 then []
  else frame.1 :: tablesTouched k
    { frame.2 with memory := copyIn frame.2.memory frame.1 pageSize (fun _ => 0) } vaddr

def RoundsReachable (k : KernelImage) : State → List ℕ → Prop
  | _, [] => True
  | s, v :: vs => (∀ p ∈ framesTouched k s v, p + pageSize ≤ identityEnd) ∧
      RoundsReachable k (mapUserPage k s v) vs

def RunReachable (k : KernelImage) : State → List Call → Prop
  | _, [] => True
  | s, c :: calls => RoundsReachable k s (callPages c) ∧ RunReachable k (call k s c) calls

/-- A frame for each page that the calls map, and one for each directory slot of theirs. -/
def framesOfRun (calls : List Call) : ℕ :=
  (calls.flatMap callPages).length +
    ((calls.flatMap callPages).map fun v => v / 4096 / 1024).toFinset.card

/-- The frames below `n` are taken, and the tables above the identity map are among them. -/
structure FilledTo (k : KernelImage) (s : State) (n : ℕ) : Prop where
  sound : Sound k s
  used : ∀ f, bitmapTest s f = decide (f < n)
  tables : ∀ d t, 4 ≤ d → tableFrame k s d = some t → t < n

section Rounds

variable {k : KernelImage} {s s' : State} {n t v : ℕ} {vs : List ℕ}

theorem FilledTo.not_held (h : FilledTo k s n) (hn : n < totalFrames) : n ∉ (space k s).held := by
  rw [not_mem_held]
  refine ⟨hn, ?_⟩
  rw [h.used, decide_eq_false_iff_not]
  exact lt_irrefl n

theorem tablesTouched_present (ht : tableFrame k s (v / 4096 / 1024) = some t) :
    tablesTouched k s v = [4096 * t] := by
  unfold tableFrame at ht
  split at ht
  · rename_i hd
    rw [← Option.some.inj ht, ← directoryEntry_mask]
    simp only [tablesTouched, directory_index]
    exact if_pos hd.2
  · cases ht

theorem tablesTouched_absent (hv : v < 2 ^ 32) (ht : tableFrame k s (v / 4096 / 1024) = none) :
    tablesTouched k s v = if (allocFrame s).1 = 0 then [] else [(allocFrame s).1] := by
  unfold tableFrame at ht
  split at ht
  · cases ht
  · rename_i hd
    have hslot : v / 4096 / 1024 < 1024 := by omega
    simp only [tablesTouched, directory_index]
    exact if_neg fun hp => hd ⟨hslot, hp⟩

theorem framesTouched_take (h : Sound k s) (h0 : ¬Pool k.kernelEnd 0) (hf : n ∉ (space k s).held)
    (he : allocFrame s = (4096 * n, bitmapSet s n)) (v : ℕ) :
    framesTouched k s v = 4096 * n :: tablesTouched k (takeFrame s n) v := by
  simp only [framesTouched, he, h.frame_pos h0 hf, if_false]
  rfl

theorem round_present (h : FilledTo k s n) (h0 : ¬Pool k.kernelEnd 0) (hn : n + 2 ≤ totalFrames)
    (hv : v < 2 ^ 32) (hs : tableFrame k s (v / 4096 / 1024) = some t) :
    framesTouched k s v = [4096 * n, 4096 * t] ∧ FilledTo k (mapUserPage k s v) (n + 1) ∧
      tableFrame k (mapUserPage k s v) = tableFrame k s := by
  have hfree := h.not_held (show n < totalFrames by omega)
  have halloc := allocFrame_filled h.used (show n < totalFrames by omega)
  have htaken := takeFrame_tableFrame h.sound hfree
  have hround := mapUserPage_present h.sound h0 hfree halloc hs
  have htables : tableFrame k (mapUserPage k s v) = tableFrame k s := by
    have hdir : k.directoryFrame ≠ t := fun e => h.sound.directory_apart _ (e ▸ hs)
    rw [hround, setTableEntry_tableFrame hdir, htaken]
  refine ⟨?_, ⟨(mapUserPage_outcome h.sound h0 hv).sound h.sound, ?_, ?_⟩, htables⟩
  · rw [framesTouched_take h.sound h0 hfree halloc, tablesTouched_present (htaken ▸ hs)]
  · intro f
    rw [hround, placed_bitmapTest, ← bitmapTest_set]
    exact bitmapSet_filled h.used f
  · intro d t' hd ht'
    rw [htables] at ht'
    exact Nat.lt_succ_of_lt (h.tables d t' hd ht')

/-- A round for a slot without a table takes the next frame, and the one after it for the
table. -/
theorem round_absent (h : FilledTo k s n) (h0 : ¬Pool k.kernelEnd 0) (hn : n + 2 ≤ totalFrames)
    (hv : v < 2 ^ 32) (hs : tableFrame k s (v / 4096 / 1024) = none) :
    framesTouched k s v = [4096 * n, 4096 * (n + 1)] ∧ FilledTo k (mapUserPage k s v) (n + 2) ∧
      tableFrame k (mapUserPage k s v) =
        Function.update (tableFrame k s) (v / 4096 / 1024) (some (n + 1)) := by
  have hfree := h.not_held (show n < totalFrames by omega)
  have halloc := allocFrame_filled h.used (show n < totalFrames by omega)
  have htaken := takeFrame_tableFrame h.sound hfree
  have hused : ∀ f, bitmapTest (takeFrame s n) f = decide (f < n + 1) :=
    fun f => bitmapSet_filled h.used f
  have halloc' := allocFrame_filled hused (show n + 1 < totalFrames by omega)
  have hpos : 4096 * (n + 1) ≠ 0 := by omega
  have hround := mapUserPage_absent h.sound h0 hfree halloc hv hs
  rw [halloc', if_neg hpos] at hround
  have hnext : n + 1 ∉ (space k (takeFrame s n)).held := by
    rw [not_mem_held, hused, decide_eq_false_iff_not]
    exact ⟨by omega, lt_irrefl _⟩
  have hdir : k.directoryFrame ≠ n + 1 :=
    (h.sound.hold (takeFrame_space h.sound hfree).1).directory_ne hnext
  have htables : tableFrame k (mapUserPage k s v) =
      Function.update (tableFrame k s) (v / 4096 / 1024) (some (n + 1)) := by
    rw [hround, setTableEntry_tableFrame hdir, attachTable_tableFrame (by omega) (frame_lt hnext)
      hdir, ← htaken]
    rfl
  refine ⟨?_, ⟨(mapUserPage_outcome h.sound h0 hv).sound h.sound, ?_, ?_⟩, htables⟩
  · rw [framesTouched_take h.sound h0 hfree halloc, tablesTouched_absent hv (htaken ▸ hs),
      halloc', if_neg hpos]
  · intro f
    rw [hround]
    exact bitmapSet_filled hused f
  · intro d t hd ht
    rw [htables] at ht
    rcases AddressSpace.update_some ht with ⟨-, e⟩ | hold
    · omega
    · have hlt := h.tables d t hd hold
      omega

theorem framesNeeded_present (ht : tableFrame k s (v / 4096 / 1024) = some t)
    (htables : tableFrame k s' = tableFrame k s) :
    framesNeeded k s (v :: vs) = framesNeeded k s' vs + 1 := by
  have hslots : emptySlots k s (v :: vs) = emptySlots k s' vs := by
    rw [emptySlots, emptySlots, htables, List.map_cons, List.toFinset_cons,
      Finset.filter_insert, if_neg (by rw [ht]; exact Option.some_ne_none t)]
  rw [framesNeeded, framesNeeded, hslots, List.length_cons]
  omega

theorem framesNeeded_absent (hnone : tableFrame k s (v / 4096 / 1024) = none)
    (htables : tableFrame k s' = Function.update (tableFrame k s) (v / 4096 / 1024) (some t)) :
    framesNeeded k s (v :: vs) = framesNeeded k s' vs + 2 := by
  have hout : v / 4096 / 1024 ∉ emptySlots k s' vs := by
    rw [emptySlots, Finset.mem_filter, htables, Function.update_self]
    exact fun h => Option.some_ne_none t h.2
  have hslots : emptySlots k s (v :: vs) = insert (v / 4096 / 1024) (emptySlots k s' vs) := by
    ext d
    simp only [emptySlots, htables, Finset.mem_filter, Finset.mem_insert, List.mem_toFinset,
      List.map_cons, List.mem_cons]
    by_cases hd : d = v / 4096 / 1024
    · rw [hd]
      simp [hnone]
    · rw [Function.update_of_ne hd]
      simp [hd]
  rw [framesNeeded, framesNeeded, hslots, Finset.card_insert_of_notMem hout, List.length_cons]
  omega

/-- As long as frames below 16 MB are left a round takes one of them, and the first round
that finds too few goes beyond. -/
theorem rounds_reachable_iff (h : FilledTo k s n) (h0 : ¬Pool k.kernelEnd 0) (hn : n ≤ 4096)
    (hvs : ∀ v ∈ vs, v < 2 ^ 32 ∧ identityEnd ≤ v) :
    RoundsReachable k s vs ↔ n + framesNeeded k s vs ≤ 4096 := by
  induction vs generalizing s n with
  | nil =>
    apply iff_of_true
    · trivial
    · exact hn
  | cons v vs ih =>
    obtain ⟨hv, h16⟩ := hvs v List.mem_cons_self
    have hvs' : ∀ w ∈ vs, w < 2 ^ 32 ∧ identityEnd ≤ w :=
      fun w hw => hvs w (List.mem_cons_of_mem v hw)
    have htotal : n + 2 ≤ totalFrames := by
      norm_num
      omega
    have hend : ∀ f, 4096 * f + pageSize ≤ identityEnd ↔ f < 4096 := by
      intro f
      norm_num
      omega
    rw [RoundsReachable]
    cases hs : tableFrame k s (v / 4096 / 1024) with
    | some t =>
      obtain ⟨htouched, hfilled, htables⟩ := round_present h h0 htotal hv hs
      have hslot : 4 ≤ v / 4096 / 1024 := by
        norm_num at h16
        omega
      have ht := h.tables _ t hslot hs
      rw [framesNeeded_present hs htables, htouched, List.forall_mem_cons,
        List.forall_mem_singleton, hend, hend]
      by_cases hlast : n < 4096
      · rw [ih hfilled (by omega) hvs']
        omega
      · omega
    | none =>
      obtain ⟨htouched, hfilled, htables⟩ := round_absent h h0 htotal hv hs
      rw [framesNeeded_absent hs htables, htouched, List.forall_mem_cons,
        List.forall_mem_singleton, hend, hend]
      by_cases hlast : n + 1 < 4096
      · rw [ih hfilled (by omega) hvs']
        omega
      · omega

theorem roundsReachable_append (s : State) (vs ws : List ℕ) :
    RoundsReachable k s (vs ++ ws) ↔
      RoundsReachable k s vs ∧ RoundsReachable k (vs.foldl (mapUserPage k) s) ws := by
  induction vs generalizing s with
  | nil => exact (and_iff_right trivial).symm
  | cons v vs ih =>
    rw [List.cons_append, RoundsReachable, RoundsReachable, ih, List.foldl_cons, and_assoc]

theorem runReachable_rounds (s : State) (calls : List Call) :
    RunReachable k s calls ↔ RoundsReachable k s (calls.flatMap callPages) := by
  induction calls generalizing s with
  | nil => exact Iff.rfl
  | cons c calls ih =>
    rw [List.flatMap_cons, roundsReachable_append, RunReachable, ih, call_eq_rounds]

theorem userPages_above {va size : ℕ} (hva : va < 2 ^ 32) (habove : identityEnd ≤ va)
    (hv : v ∈ userPages va size) : v < 2 ^ 32 ∧ identityEnd ≤ v := by
  refine ⟨userPages_lt hv, ?_⟩
  rw [userPages_eq hva, List.mem_map] at hv
  obtain ⟨i, -, rfl⟩ := hv
  norm_num at habove ⊢
  omega

theorem callPages_above {c : Call} (hc : identityEnd ≤ c.1.toNat) (hv : v ∈ callPages c) :
    v < 2 ^ 32 ∧ identityEnd ≤ v := by
  unfold callPages at hv
  split at hv
  · exact absurd hv List.not_mem_nil
  · exact userPages_above c.1.toNat_lt hc hv

theorem pagingInit_filled (k : KernelImage) (memory : Bytes) :
    FilledTo k (pagingInit k memory) (reservedEndPage k.kernelEnd) where
  sound := pagingInit_sound k memory
  used := pagingInit_used k memory
  tables := by
    intro d t hd ht
    rw [pagingInit_tableFrame, if_neg (by omega)] at ht
    cases ht

theorem framesNeeded_pagingInit (k : KernelImage) (memory : Bytes) {calls : List Call}
    (habove : ∀ v ∈ calls.flatMap callPages, v < 2 ^ 32 ∧ identityEnd ≤ v) :
    framesNeeded k (pagingInit k memory) (calls.flatMap callPages) = framesOfRun calls := by
  rw [framesNeeded, emptySlots, framesOfRun, Finset.filter_true_of_mem]
  intro d hd
  obtain ⟨v, hv, rfl⟩ := List.mem_map.mp (List.mem_toFinset.mp hd)
  have h16 := (habove v hv).2
  norm_num at h16
  rw [pagingInit_tableFrame, if_neg (by omega)]

theorem boot_reachable_iff (h0 : 0 < k.kernelEnd) (h16 : k.kernelEnd < identityEnd)
    (memory : Bytes) {calls : List Call} (habove : ∀ c ∈ calls, identityEnd ≤ c.1.toNat) :
    RunReachable k (pagingInit k memory) calls ↔
      reservedEndPage k.kernelEnd + framesOfRun calls ≤ 4096 := by
  have hpages : ∀ v ∈ calls.flatMap callPages, v < 2 ^ 32 ∧ identityEnd ≤ v := by
    intro v hv
    obtain ⟨c, hc, hvc⟩ := List.mem_flatMap.mp hv
    exact callPages_above (habove c hc) hvc
  norm_num at h16
  have h64 : k.kernelEnd ≤ maxPhysicalMemory := by
    norm_num
    omega
  have hreserved : reservedEndPage k.kernelEnd ≤ 4096 := by
    rw [reservedEndPage_eq h64]
    omega
  rw [runReachable_rounds, rounds_reachable_iff (pagingInit_filled k memory)
    (zero_not_pool h0 h64) hreserved hpages, framesNeeded_pagingInit k memory hpages]

end Rounds

/-- The kernel reaches every frame that a run accesses exactly when the run's frames fit
between the end of the kernel and the end of the identity map. -/
theorem run_reachable_iff (k : KernelImage) (h0 : 0 < k.kernelEnd)
    (h16 : k.kernelEnd < identityEnd) (memory : Bytes) (calls : List Call)
    (habove : ∀ c ∈ calls, identityEnd ≤ c.1.toNat) :
    RunReachable k (pagingInit k memory) calls ↔
      reservedEndPage k.kernelEnd + framesOfRun calls ≤ 4096 :=
  boot_reachable_iff h0 h16 memory habove

theorem run_reachable_iff_boot :
    RunReachable bootImage (pagingInit bootImage fun _ => 0) [(0x1000000, 5000)] ↔
      reservedEndPage bootImage.kernelEnd + framesOfRun [(0x1000000, 5000)] ≤ 4096 :=
  run_reachable_iff bootImage (by decide) (by decide) _ _
    (List.forall_mem_singleton.mpr (by decide))

/-- 10 MB for a process behind a kernel that ends at 6 MB: the last frames lie above 16 MB. -/
theorem largeCall_unreachable :
    ¬RunReachable bootImage (pagingInit bootImage fun _ => 0) [(0x40000000, 0xA00000)] := by
  have habove : ∀ c ∈ [((0x40000000, 0xA00000) : Call)], identityEnd ≤ c.1.toNat :=
    List.forall_mem_singleton.mpr (by decide)
  rw [boot_reachable_iff (by decide) (by decide) _ habove]
  have hreserved : reservedEndPage bootImage.kernelEnd = 1536 := by decide
  have hlength : (callPages (0x40000000, 0xA00000)).length = 2560 := by
    have hsize : ((0x40000000, 0xA00000) : Call).2.toNat ≠ 0 := by decide
    rw [callPages, if_neg hsize, userPages_eq (UInt32.toNat_lt _), List.length_map,
      List.length_range]
    decide
  have hslot : 0 < ((callPages (0x40000000, 0xA00000)).map
      fun v => v / 4096 / 1024).toFinset.card := by
    rw [Finset.card_pos, List.toFinset_nonempty_iff, Ne, List.map_eq_nil_iff,
      ← List.length_eq_zero_iff, hlength]
    norm_num
  rw [framesOfRun, List.flatMap_singleton, hreserved, hlength]
  omega

end DirectAccess
