import Mathlib.Data.Finset.Card
import Mathlib.Data.Finset.Range
import SojebOS.Fat32Layout

/-!
# Freeing a chain ends on every disk

The loop reads a link, clears it and follows it. On a damaged FAT the links may form a cycle
or join another chain, and the loop comes back to a cluster it has freed; the cleared link
then stops it. What gets smaller is the number of links that are not zero.
-/
namespace Fat32Freeing

open ByteMemory MachineWord WhileLoop Fat32Disk Fat32Files Fat32Layout

def linkedClusters (fs : Fat32) (d : Bytes) : Finset ℕ :=
  (Finset.range 0x0FFFFFF8).filter fun c => ¬ offChain c ∧ fat32NextCluster fs d c ≠ 0

/-- How many rounds the loop can still take. -/
def freeMeasure (fs : Fat32) (s : Bytes × ℕ) : ℕ :=
  if offChain s.2 then 0 else (linkedClusters fs s.1).card + 1

section Steps

variable {fs : Fat32} {d d' : Bytes} {c x : ℕ} {s t : Bytes × ℕ} {l : List (Bytes × ℕ)}

theorem link_lt (hc : ¬ offChain c) : c < 2 ^ 30 := by
  have hlt := (not_not.mp hc).2
  omega

theorem mem_linkedClusters :
    c ∈ linkedClusters fs d ↔ ¬ offChain c ∧ fat32NextCluster fs d c ≠ 0 := by
  rw [linkedClusters, Finset.mem_filter, Finset.mem_range, and_iff_right_iff_imp]
  exact fun h => (not_not.mp h.1).2

theorem freed_stays (hc : ¬ offChain c) (hx : ¬ offChain x)
    (hzero : fat32NextCluster fs d x = 0) :
    fat32NextCluster fs (fat32SetNextCluster fs d c 0) x = 0 := by
  by_cases hxc : x = c
  · rw [hxc]
    exact nextCluster_setNextCluster_self (link_lt hc) (by norm_num)
  · rw [nextCluster_setNextCluster_other (link_lt hc) (link_lt hx) hxc, hzero]

theorem linkedClusters_freed (fs : Fat32) (d : Bytes) (hc : ¬ offChain c) :
    linkedClusters fs (fat32SetNextCluster fs d c 0) ⊆ (linkedClusters fs d).erase c := by
  intro x hx
  obtain ⟨hon, hne⟩ := mem_linkedClusters.mp hx
  refine Finset.mem_erase.mpr ⟨fun hxc => ?_, mem_linkedClusters.mpr ⟨hon, fun hzero => ?_⟩⟩
  · rw [hxc] at hne
    exact hne (nextCluster_setNextCluster_self (link_lt hc) (by norm_num))
  · exact hne (freed_stays hc hon hzero)

/-- A round clears a link that was not zero, or it comes to the end. -/
theorem freeMeasure_decreases (h : freeBody fs s = .again t) :
    freeMeasure fs t < freeMeasure fs s := by
  obtain ⟨d, c⟩ := s
  by_cases hc : offChain c
  · simp only [freeBody, hc, ↓reduceIte, reduceCtorEq] at h
  simp only [freeBody, hc, ↓reduceIte, Iteration.again.injEq] at h
  subst h
  by_cases hend : offChain (fat32NextCluster fs d c)
  · simp only [freeMeasure, hend, hc, ↓reduceIte]
    exact Nat.succ_pos _
  · have hlinked : c ∈ linkedClusters fs d := by
      refine mem_linkedClusters.mpr ⟨hc, fun hzero => hend ?_⟩
      rw [hzero]
      decide
    have hcard := Finset.card_le_card (linkedClusters_freed fs d hc)
    rw [Finset.card_erase_of_mem hlinked] at hcard
    have hpos := Finset.card_pos.mpr ⟨c, hlinked⟩
    simp only [freeMeasure, hend, hc, ↓reduceIte]
    omega

theorem rounds_keep_freed (h : Rounds (freeBody fs) s l d') (hx : ¬ offChain x)
    (hzero : fat32NextCluster fs s.1 x = 0) : fat32NextCluster fs d' x = 0 := by
  induction h with
  | @leave s r hb =>
    by_cases hc : offChain s.2
    · simp only [freeBody, hc, ↓reduceIte, Iteration.leave.injEq] at hb
      rw [← hb]
      exact hzero
    · simp only [freeBody, hc, ↓reduceIte, reduceCtorEq] at hb
  | @again s t _ _ hb _ ih =>
    by_cases hc : offChain s.2
    · simp only [freeBody, hc, ↓reduceIte, reduceCtorEq] at hb
    · simp only [freeBody, hc, ↓reduceIte, Iteration.again.injEq] at hb
      rw [← hb] at ih
      exact ih (freed_stays hc hx hzero)

theorem rounds_freed (h : Rounds (freeBody fs) s l d') :
    ∀ t ∈ l, fat32NextCluster fs d' t.2 = 0 := by
  induction h with
  | leave => simp
  | @again s t _ _ hb hr ih =>
    by_cases hc : offChain s.2
    · simp only [freeBody, hc, ↓reduceIte, reduceCtorEq] at hb
    simp only [freeBody, hc, ↓reduceIte, Iteration.again.injEq] at hb
    intro u hu
    rcases List.mem_cons.mp hu with rfl | hu
    · refine rounds_keep_freed hr hc ?_
      rw [← hb]
      exact nextCluster_setNextCluster_self (link_lt hc) (by norm_num)
    · exact ih u hu

end Steps

theorem freeMeasure_lt (fs : Fat32) (s : Bytes × ℕ) : freeMeasure fs s < wordCount := by
  have hcard : (linkedClusters fs s.1).card ≤ 0x0FFFFFF8 :=
    (Finset.card_filter_le _ _).trans (Finset.card_range _).le
  unfold freeMeasure wordCount
  split <;> omega

/-- Freeing ends from every cluster of every disk, and all clusters it came to are free. -/
theorem freeing_ends (fs : Fat32) (d : Bytes) (clusterToFree : ℕ) :
    ∃ rounds d', Rounds (freeBody fs) (d, clusterToFree) rounds d' ∧
      freeChain fs d clusterToFree = some d' ∧
      ∀ c ∈ rounds.map Prod.snd, fat32NextCluster fs d' c = 0 := by
  obtain ⟨rounds, d', hr, hlen⟩ :=
    rounds_of_measure (freeMeasure fs) (fun _ _ => freeMeasure_decreases) (d, clusterToFree)
  refine ⟨rounds, d', hr, hr.run_eq (hlen.trans_lt (freeMeasure_lt fs _)), fun c hc => ?_⟩
  obtain ⟨t, ht, rfl⟩ := List.mem_map.mp hc
  exact rounds_freed hr t ht

end Fat32Freeing
