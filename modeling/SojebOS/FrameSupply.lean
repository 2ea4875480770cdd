import SojebOS.PagingInit
import Mathlib.Data.Finset.Card
import Mathlib.Order.Interval.Finset.Nat

/-!
# Enough free frames

A list of pages needs a frame for each round and one for each directory slot of theirs that
has no table yet. With that many free, every page of the list gets a cleared frame, and the
bytes of the other pages stay.
-/
namespace FrameSupply

open ByteMemory PageFrames Paging PagingWalks PagingRefinement PagingInit

def freeFrames (s : State) : ℕ :=
  ((Finset.range totalFrames).filter fun f => bitmapTest s f = false).card

/-- The directory slots of the pages at `vs` that have no table. -/
def emptySlots (k : KernelImage) (s : State) (vs : List ℕ) : Finset ℕ :=
  (vs.map fun v => v / 4096 / 1024).toFinset.filter fun d => tableFrame k s d = none

def framesNeeded (k : KernelImage) (s : State) (vs : List ℕ) : ℕ :=
  vs.length + (emptySlots k s vs).card

/-- The byte of ring 3 at a virtual address, where a page of ring 3 has it. -/
def userByte (k : KernelImage) (s : State) (x : ℕ) : Option UInt8 :=
  (userFrame k s (x / 4096)).map fun f => s.memory (4096 * f + x % 4096)

section Counting

variable {k : KernelImage} {s s' : State} {f t d v : ℕ} {vs : List ℕ}

theorem freeFrames_hold (hf : f ∉ (space k s).held)
    (hheld : (space k s').held = insert f (space k s).held) :
    freeFrames s' + 1 = freeFrames s := by
  have hmem : f ∈ (Finset.range totalFrames).filter fun f => bitmapTest s f = false := by
    rw [Finset.mem_filter, Finset.mem_range]
    exact not_mem_held.mp hf
  have herase : ((Finset.range totalFrames).filter fun f => bitmapTest s' f = false) =
      ((Finset.range totalFrames).filter fun f => bitmapTest s f = false).erase f := by
    ext g
    rw [Finset.mem_erase, Finset.mem_filter, Finset.mem_filter, Finset.mem_range,
      ← not_mem_held (k := k), ← not_mem_held (k := k), hheld, Set.mem_insert_iff, not_or]
  rw [freeFrames, freeFrames, herase, Finset.card_erase_add_one hmem]

theorem exists_free (hfree : 0 < freeFrames s) : ∃ f, f ∉ (space k s).held := by
  obtain ⟨f, hf⟩ := Finset.card_pos.mp hfree
  rw [Finset.mem_filter, Finset.mem_range] at hf
  exact ⟨f, not_mem_held.mpr hf⟩

theorem emptySlots_cons (hd : tableFrame k s' = tableFrame k s) :
    emptySlots k s' vs ⊆ emptySlots k s (v :: vs) := by
  intro d
  simp only [emptySlots, hd, Finset.mem_filter, List.mem_toFinset, List.map_cons, List.mem_cons]
  exact fun h => ⟨Or.inr h.1, h.2⟩

theorem emptySlots_attach (hnone : tableFrame k s (v / 4096 / 1024) = none)
    (hd : tableFrame k s' = Function.update (tableFrame k s) (v / 4096 / 1024) (some t)) :
    (emptySlots k s' vs).card + 1 ≤ (emptySlots k s (v :: vs)).card := by
  have hout : v / 4096 / 1024 ∉ emptySlots k s' vs := by
    simp [emptySlots, hd]
  rw [← Finset.card_insert_of_notMem hout]
  apply Finset.card_le_card
  intro d hdm
  simp only [emptySlots, Finset.mem_filter, List.mem_toFinset, List.map_cons, List.mem_cons]
  rcases Finset.mem_insert.mp hdm with rfl | hin
  · exact ⟨Or.inl rfl, hnone⟩
  · simp only [emptySlots, hd, Finset.mem_filter, List.mem_toFinset] at hin
    have hne : d ≠ v / 4096 / 1024 := by
      intro e
      rw [e, Function.update_self] at hin
      exact Option.some_ne_none t hin.2
    rw [Function.update_of_ne hne] at hin
    exact ⟨Or.inr hin.1, hin.2⟩

theorem framesNeeded_le (k : KernelImage) (s : State) (vs : List ℕ) :
    framesNeeded k s vs ≤ 2 * vs.length := by
  have hsub : (emptySlots k s vs).card ≤ vs.length := by
    calc (emptySlots k s vs).card ≤ (vs.map fun v => v / 4096 / 1024).toFinset.card :=
          Finset.card_filter_le _ _
      _ ≤ (vs.map fun v => v / 4096 / 1024).length := List.toFinset_card_le _
      _ = vs.length := List.length_map _
  rw [framesNeeded]
  omega

theorem freeFrames_pagingInit (k : KernelImage) (memory : Bytes) :
    freeFrames (pagingInit k memory) = totalFrames - reservedEndPage k.kernelEnd := by
  have hfilter : ((Finset.range totalFrames).filter
      fun f => bitmapTest (pagingInit k memory) f = false) =
      Finset.Ico (reservedEndPage k.kernelEnd) totalFrames := by
    ext f
    rw [Finset.mem_filter, pagingInit_used, Finset.mem_range, Finset.mem_Ico,
      decide_eq_false_iff_not, not_lt, and_comm]
  rw [freeFrames, hfilter, Nat.card_Ico]

end Counting

section Rounds

variable {k : KernelImage} {s : State} {v x : ℕ} {vs ws : List ℕ}

theorem round_supplied (h : Sound k s) (h0 : ¬Pool k.kernelEnd 0) (hv : v < 2 ^ 32)
    (hneed : framesNeeded k s (v :: vs) ≤ freeFrames s) :
    (∃ f, Mapped k s (v / 4096) f (mapUserPage k s v) ∧
      userFrame k (mapUserPage k s v) = Function.update (userFrame k s) (v / 4096) (some f)) ∧
      framesNeeded k (mapUserPage k s v) vs ≤ freeFrames (mapUserPage k s v) := by
  rw [framesNeeded, List.length_cons] at hneed
  have hout := mapUserPage_outcome h h0 hv
  generalize mapUserPage k s v = s' at hout
  cases hout with
  | refused hfull =>
    obtain ⟨f, hf⟩ := exists_free (k := k) (s := s) (by omega)
    exact absurd (hfull f) hf
  | stranded f _ hf hs hfull hspace =>
    have hslot : 0 < (emptySlots k s (v :: vs)).card := by
      apply Finset.card_pos.mpr
      refine ⟨v / 4096 / 1024, ?_⟩
      simp only [emptySlots, Finset.mem_filter, List.mem_toFinset, List.map_cons, List.mem_cons]
      exact ⟨Or.inl trivial, hs⟩
    have hcount := freeFrames_hold hf (congrArg AddressSpace.Space.held hspace)
    obtain ⟨g, hg⟩ := exists_free (k := k) (s := s') (by omega)
    rw [hspace] at hg
    exact absurd (hfull g) hg
  | placed f t _ hs hspace hmap =>
    have hcount := freeFrames_hold hmap.free (congrArg AddressSpace.Space.held hspace)
    have htables : tableFrame k s' = tableFrame k s := congrArg AddressSpace.Space.table hspace
    have hslots : (emptySlots k s' vs).card ≤ (emptySlots k s (v :: vs)).card :=
      Finset.card_le_card (emptySlots_cons htables)
    refine ⟨⟨f, hmap, congrArg AddressSpace.Space.page hspace⟩, ?_⟩
    rw [framesNeeded]
    omega
  | grown f t _ hs ht hspace hmap =>
    have hslots : (emptySlots k s' vs).card + 1 ≤ (emptySlots k s (v :: vs)).card :=
      emptySlots_attach hs (congrArg AddressSpace.Space.table hspace)
    -- the frame, then the table's frame
    have hone := freeFrames_hold hmap.free (congrArg AddressSpace.Space.held
      (space_bitmapSet k s f))
    have htwo : freeFrames s' + 1 = freeFrames (bitmapSet s f) := by
      rw [← space_bitmapSet] at ht
      apply freeFrames_hold ht
      rw [hspace, space_bitmapSet]
      rfl
    refine ⟨⟨f, hmap, congrArg AddressSpace.Space.page hspace⟩, ?_⟩
    rw [framesNeeded]
    omega

theorem userByte_mapped {s' : State} {f page : ℕ} (h : Sound k s) (hmap : Mapped k s page f s')
    (huser : userFrame k s' = Function.update (userFrame k s) page (some f)) :
    userByte k s' x = if x / 4096 = page then some 0 else userByte k s x := by
  have hi : x % 4096 < 4096 := Nat.mod_lt _ (by norm_num)
  by_cases hp : x / 4096 = page
  · rw [if_pos hp, userByte, huser, hp, Function.update_self, Option.map_some,
      hmap.cleared _ hi]
  · rw [if_neg hp, userByte, userByte, huser, Function.update_of_ne hp]
    cases hg : userFrame k s (x / 4096) with
    | none => rfl
    | some g =>
      have hdir : g ≠ k.directoryFrame :=
        fun e => h.isolated.page_not_kept _ _ hg (e ▸ k.directory_kept)
      have hkept := hmap.kept g (h.isolated.page_held _ _ hg) hdir
        fun d => h.isolated.page_not_table _ d _ hg
      rw [Option.map_some, Option.map_some, hkept.byte hi]

theorem rounds_supplied (h : Sound k s) (h0 : ¬Pool k.kernelEnd 0) (hvs : ∀ v ∈ vs, v < 2 ^ 32)
    (hneed : framesNeeded k s (vs ++ ws) ≤ freeFrames s) :
    Sound k (vs.foldl (mapUserPage k) s) ∧
      framesNeeded k (vs.foldl (mapUserPage k) s) ws ≤ freeFrames (vs.foldl (mapUserPage k) s) ∧
      ∀ x, userByte k (vs.foldl (mapUserPage k) s) x =
        if ∃ v ∈ vs, v / 4096 = x / 4096 then some 0 else userByte k s x := by
  induction vs generalizing s with
  | nil => exact ⟨h, hneed, fun x => by simp⟩
  | cons v vs ih =>
    have hv := hvs v List.mem_cons_self
    obtain ⟨⟨f, hmap, huser⟩, hrest⟩ := round_supplied h h0 hv hneed
    obtain ⟨hsound, hsupply, hbytes⟩ := ih ((mapUserPage_outcome h h0 hv).sound h)
      (fun w hw => hvs w (List.mem_cons_of_mem v hw)) hrest
    rw [List.foldl_cons]
    refine ⟨hsound, hsupply, fun x => ?_⟩
    rw [hbytes x, userByte_mapped h hmap huser]
    by_cases hx : ∃ w ∈ vs, w / 4096 = x / 4096
    · obtain ⟨w, hw, he⟩ := hx
      rw [if_pos ⟨w, hw, he⟩, if_pos ⟨w, List.mem_cons_of_mem v hw, he⟩]
    · rw [if_neg hx]
      apply if_congr _ rfl rfl
      rw [List.exists_mem_cons_iff, or_iff_left hx]
      exact eq_comm

end Rounds

end FrameSupply
