import SojebOS.Fat32Volume

/-!
# What the allocation loop and the store of an entry write

`Written` is the invariant of the allocation loop: the clusters taken so far were free,
form one chain, hold their part of the data, and nothing else on the disk changed.
-/
namespace Fat32Allocation

open ByteMemory MachineWord WhileLoop LinkedChain
open Fat32Disk Fat32Directory Fat32Files Fat32Tree Fat32Layout Fat32Volume

section Clusters

variable {fs : Fat32} {d : Bytes} {data : Bytes} {size i c s o x : ℕ}

theorem writeSector_outside (hg : Geometry fs) (hc : InRange fs c)
    (hs : s < fs.sectorsPerCluster)
    (hx : x < clusterAddr fs c + 512 * s ∨ clusterAddr fs c + 512 * (s + 1) ≤ x) :
    writeSector fs data size i (clusterToSector fs c) d s x = d x := by
  have ha := sector_addr hg hc hs
  unfold writeSector
  simp only
  split_ifs
  · exact diskWrite_outside (by omega)
  · exact diskWrite_outside (by omega)
  · rfl

theorem writeSector_inside (hg : Geometry fs) (hc : InRange fs c)
    (hs : s < fs.sectorsPerCluster) (hi : (i + 1) * bytesPerCluster fs ≤ 2 ^ 32)
    (ho : o < 512) (hsize : i * bytesPerCluster fs + 512 * s + o < size) :
    writeSector fs data size i (clusterToSector fs c) d s (clusterAddr fs c + 512 * s + o) =
      data (i * bytesPerCluster fs + 512 * s + o) := by
  have ha := sector_addr hg hc hs
  have hb : 512 * s + 512 ≤ bytesPerCluster fs := by simp only [bytesPerCluster]; omega
  rw [add_mul, one_mul] at hi
  have hoff : u32 (u32 (i * bytesPerCluster fs) + s * 512) =
      i * bytesPerCluster fs + 512 * s := by
    rw [u32_of_lt (show i * bytesPerCluster fs < 2 ^ 32 by omega), u32_of_lt (by omega),
      Nat.mul_comm s]
  unfold writeSector
  simp only [hoff, ← ha]
  rw [if_pos (by omega)]
  by_cases hfull : 512 ≤ size - (i * bytesPerCluster fs + 512 * s)
  · rw [if_pos hfull, diskWrite_inside ho]
    rfl
  · rw [if_neg hfull, diskWrite_inside ho, if_pos (by omega)]

/-- The sectors of a cluster are written one after the other, each at its own place. -/
theorem writeSectors_spec (hg : Geometry fs) (hc : InRange fs c)
    (hi : (i + 1) * bytesPerCluster fs ≤ 2 ^ 32) (n : ℕ) (hn : n ≤ fs.sectorsPerCluster) :
    (∀ x, x < clusterAddr fs c ∨ clusterAddr fs c + 512 * n ≤ x →
      (List.range n).foldl (writeSector fs data size i (clusterToSector fs c)) d x = d x) ∧
    ∀ o < 512 * n, i * bytesPerCluster fs + o < size →
      (List.range n).foldl (writeSector fs data size i (clusterToSector fs c)) d
        (clusterAddr fs c + o) = data (i * bytesPerCluster fs + o) := by
  induction n with
  | zero => exact ⟨fun _ _ => rfl, fun o ho => by omega⟩
  | succ n ih =>
    obtain ⟨hout, hin⟩ := ih (by omega)
    simp only [List.range_succ, List.foldl_append, List.foldl_cons, List.foldl_nil]
    refine ⟨fun x hx => ?_, fun o ho hsize => ?_⟩
    · rw [writeSector_outside hg hc (by omega) (by omega), hout x (by omega)]
    · by_cases h : o < 512 * n
      · rw [writeSector_outside hg hc (by omega) (by omega), hin o h hsize]
      · obtain ⟨k, rfl⟩ := Nat.exists_eq_add_of_le (Nat.not_lt.mp h)
        rw [← Nat.add_assoc, ← Nat.add_assoc]
        exact writeSector_inside hg hc (by omega) hi (by omega) (by omega)

theorem writeCluster_outside (hg : Geometry fs) (hc : InRange fs c)
    (hi : (i + 1) * bytesPerCluster fs ≤ 2 ^ 32) (hx : x ∉ dataArea fs c) :
    writeCluster fs data size i c d x = d x := by
  simp only [dataArea, bytesPerCluster, Set.mem_Ico] at hx
  exact (writeSectors_spec hg hc hi _ le_rfl).1 x (by omega)

theorem writeCluster_inside (hg : Geometry fs) (hc : InRange fs c)
    (hi : (i + 1) * bytesPerCluster fs ≤ 2 ^ 32) (ho : o < bytesPerCluster fs)
    (hsize : i * bytesPerCluster fs + o < size) :
    writeCluster fs data size i c d (clusterAddr fs c + o) =
      data (i * bytesPerCluster fs + o) := by
  simp only [bytesPerCluster] at ho
  exact (writeSectors_spec hg hc hi _ le_rfl).2 o (by omega) hsize

theorem nextCluster_writeCluster (hg : Geometry fs) (hc : InRange fs c)
    (hi : (i + 1) * bytesPerCluster fs ≤ 2 ^ 32) {c' : ℕ} (hc' : InRange fs c') :
    fat32NextCluster fs (writeCluster fs data size i c d) c' = fat32NextCluster fs d c' := by
  refine nextCluster_congr hg hc'.2 fun x hx => writeCluster_outside hg hc hi ?_
  have := cell_before_data c hg hc'.2
  simp only [cell, dataArea, Set.mem_Ico] at hx ⊢
  omega

end Clusters

/-- The clusters `l` have been taken for the data, in this order. -/
structure Written (fs : Fat32) (d₀ : Bytes) (data : Bytes) (size : ℕ) (d : Bytes)
    (first : ℕ) (l : List ℕ) : Prop where
  free : ∀ c ∈ l, Free fs d₀ c
  outside : ∀ x, x ∉ territories fs l → d x = d₀ x
  extent : Extent fs d first l
  contents : ∀ k c, l[k]? = some c → ∀ o < bytesPerCluster fs,
    k * bytesPerCluster fs + o < size →
      d (clusterAddr fs c + o) = data (k * bytesPerCluster fs + o)

section Rounds

variable {fs : Fat32} {d₀ d data : Bytes} {size first prev c : ℕ} {l : List ℕ}

theorem mem_territories_append {m : List ℕ} {x : ℕ} :
    x ∈ territories fs (l ++ m) ↔ x ∈ territories fs l ∨ x ∈ territories fs m := by
  simp only [territories, Set.mem_ofPred_eq, List.mem_append]
  constructor
  · rintro ⟨c, h | h, hx⟩
    · exact .inl ⟨c, h, hx⟩
    · exact .inr ⟨c, h, hx⟩
  · rintro (⟨c, h, hx⟩ | ⟨c, h, hx⟩)
    · exact ⟨c, .inl h, hx⟩
    · exact ⟨c, .inr h, hx⟩

theorem Written.free_before (hg : Geometry fs) (h : Written fs d₀ data size d first l)
    (hc : Free fs d c) : c ∉ l ∧ Free fs d₀ c := by
  have hnot : c ∉ l := fun hm => h.extent.not_free hm hc
  refine ⟨hnot, hc.1, ?_⟩
  rw [← hc.2]
  refine (nextCluster_congr hg hc.1.2 fun x hx => ?_).symm
  refine h.outside x fun hx' => ?_
  obtain ⟨c', hc', hx'⟩ := hx'
  have hne : c ≠ c' := by
    rintro rfl
    exact hnot hc'
  exact territory_disjoint hg hc.1 (h.extent.inRange c' hc') hne (.inl hx) hx'

/-- One round: the link from the last cluster, the end mark, and the data. -/
def takeCluster (fs : Fat32) (data : Bytes) (size i : ℕ) (d : Bytes) (prev c : ℕ) : Bytes :=
  let d := if i = 0 then d else fat32SetNextCluster fs d prev c
  writeCluster fs data size i c (fat32SetNextCluster fs d c 0x0FFFFFFF)

theorem takeCluster_outside (hg : Geometry fs) {i x : ℕ} (hc : InRange fs c)
    (hprev : i ≠ 0 → InRange fs prev) (hi : (i + 1) * bytesPerCluster fs ≤ 2 ^ 32)
    (hx : x ∉ territory fs c) (hx' : i ≠ 0 → x ∉ cell fs prev) :
    takeCluster fs data size i d prev c x = d x := by
  unfold takeCluster
  rw [writeCluster_outside hg hc hi fun h => hx (.inr h),
    setNextCluster_outside hg hc.2 fun h => hx (.inl h)]
  split_ifs with h0
  · rfl
  · exact setNextCluster_outside hg (hprev h0).2 (hx' h0)

theorem takeCluster_next (hg : Geometry fs) {i : ℕ} (hc : InRange fs c)
    (hi : (i + 1) * bytesPerCluster fs ≤ 2 ^ 32) :
    fat32NextCluster fs (takeCluster fs data size i d prev c) c = 0x0FFFFFFF := by
  unfold takeCluster
  rw [nextCluster_writeCluster hg hc hi hc]
  exact nextCluster_setNextCluster hg hc.2 (by norm_num)

theorem takeCluster_next_prev (hg : Geometry fs) {i : ℕ} (hc : InRange fs c)
    (hprev : InRange fs prev) (hne : prev ≠ c) (h0 : i ≠ 0)
    (hi : (i + 1) * bytesPerCluster fs ≤ 2 ^ 32) :
    fat32NextCluster fs (takeCluster fs data size i d prev c) prev = c := by
  have hcl := hg.clusters
  have hlt := hc.2
  unfold takeCluster
  simp only [h0, ↓reduceIte]
  rw [nextCluster_writeCluster hg hc hi hprev,
    nextCluster_setNextCluster_ne hg hc.2 hprev.2 hne,
    nextCluster_setNextCluster hg hprev.2 (by omega)]

theorem takeCluster_next_other (hg : Geometry fs) {i c' : ℕ} (hc : InRange fs c)
    (hprev : i ≠ 0 → InRange fs prev) (hc' : InRange fs c') (hne : c' ≠ c)
    (hne' : i ≠ 0 → c' ≠ prev) (hi : (i + 1) * bytesPerCluster fs ≤ 2 ^ 32) :
    fat32NextCluster fs (takeCluster fs data size i d prev c) c' = fat32NextCluster fs d c' := by
  refine nextCluster_congr hg hc'.2 fun x hx => takeCluster_outside hg hc hprev hi ?_ fun h0 => ?_
  · exact territory_disjoint hg hc' hc hne (.inl hx)
  · exact cell_disjoint (hne' h0) hx

theorem takeCluster_extent (hg : Geometry fs) (h : Extent fs d first l)
    (hlast : l ≠ [] → l.getLast? = some prev) (hc : InRange fs c) (hcl : c ∉ l)
    (hi : (l.length + 1) * bytesPerCluster fs ≤ 2 ^ 32) :
    Extent fs (takeCluster fs data size l.length d prev c)
      (if l.length = 0 then c else first) (l ++ [c]) := by
  have hend : endOfChain
      (fat32NextCluster fs (takeCluster fs data size l.length d prev c) c) := by
    rw [takeCluster_next hg hc hi]
    unfold endOfChain
    norm_num
  have hnot : ¬ endOfChain c := by
    have h1 := hg.clusters
    have h2 := hc.2
    unfold endOfChain
    omega
  rcases h with ⟨-, rfl⟩ | h
  · exact .inr ⟨.cons hnot (.nil hend), by simpa using hc, by simp⟩
  obtain ⟨pre, rfl⟩ : ∃ pre, l = pre ++ [prev] :=
    ⟨_, (List.dropLast_append_getLast? prev (hlast h.nonempty)).symm⟩
  have hprev : InRange fs prev := h.inRange prev (by simp)
  have hne : prev ≠ c := by
    rintro rfl
    exact hcl (by simp)
  have h0 : (pre ++ [prev]).length ≠ 0 := by simp
  rw [if_neg h0]
  refine .inr ⟨?_, ?_, by simp⟩
  · refine h.linked.extend (fun x hx => ?_)
      (takeCluster_next_prev hg hc hprev hne h0 hi) hnot hend
    have hxr := h.inRange x (List.mem_append_left _ hx)
    refine takeCluster_next_other hg hc (fun _ => hprev) hxr ?_ (fun _ => ?_) hi
    · rintro rfl
      exact hcl (List.mem_append_left _ hx)
    · rintro rfl
      have hnd := h.linked.nodup
      rw [List.nodup_append] at hnd
      exact hnd.2.2 x hx x List.mem_cons_self rfl
  · intro x hx
    rcases List.mem_append.mp hx with hx | hx
    · exact h.inRange x hx
    · rw [List.mem_singleton.mp hx]
      exact hc

theorem takeCluster_written (hg : Geometry fs) (h : Written fs d₀ data size d first l)
    (hlast : l ≠ [] → l.getLast? = some prev) (hc : Free fs d c)
    (hi : (l.length + 1) * bytesPerCluster fs ≤ 2 ^ 32) :
    Written fs d₀ data size (takeCluster fs data size l.length d prev c)
      (if l.length = 0 then c else first) (l ++ [c]) := by
  obtain ⟨hcl, hfree⟩ := h.free_before hg hc
  have hprev : l.length ≠ 0 → prev ∈ l := fun h0 =>
    List.mem_of_getLast? (hlast (List.ne_nil_of_length_pos (Nat.pos_of_ne_zero h0)))
  have hprevr : l.length ≠ 0 → InRange fs prev := fun h0 => h.extent.inRange _ (hprev h0)
  refine ⟨?_, ?_, takeCluster_extent hg h.extent hlast hc.1 hcl hi, ?_⟩
  · intro x hx
    rcases List.mem_append.mp hx with hx | hx
    · exact h.free x hx
    · rw [List.mem_singleton.mp hx]
      exact hfree
  · intro x hx
    rw [mem_territories_append, not_or] at hx
    rw [takeCluster_outside hg hc.1 hprevr hi (fun hm => hx.2 ⟨c, List.mem_cons_self, hm⟩)
      fun h0 hm => hx.1 ⟨prev, hprev h0, .inl hm⟩]
    exact h.outside x hx.1
  · intro k c' hk o ho hsize
    rcases Nat.lt_trichotomy k l.length with hlt | rfl | hgt
    · rw [List.getElem?_append_left hlt] at hk
      have hmem := List.mem_of_getElem? hk
      have hr := h.extent.inRange c' hmem
      have hdata : clusterAddr fs c' + o ∈ dataArea fs c' := by
        simp only [dataArea, Set.mem_Ico]
        omega
      rw [takeCluster_outside hg hc.1 hprevr hi]
      · exact h.contents k c' hk o ho hsize
      · refine territory_disjoint hg hr hc.1 ?_ (.inr hdata)
        rintro rfl
        exact hcl hmem
      · intro h0 hm
        have := cell_before_data c' hg (hprevr h0).2
        simp only [cell, dataArea, Set.mem_Ico] at hm hdata
        omega
    · rw [List.getElem?_append_right le_rfl, Nat.sub_self] at hk
      obtain rfl : c = c' := by simpa using hk
      exact writeCluster_inside hg hc.1 hi ho hsize
    · rw [List.getElem?_eq_none (by simp; omega)] at hk
      cases hk

/-- The loop ends with all clusters it needs, or when no cluster is free any more. -/
theorem allocateClusters_written (prev : ℕ) (hg : Geometry fs) (rounds : ℕ)
    (h : Written fs d₀ data size d first l) (hlast : l ≠ [] → l.getLast? = some prev)
    (hi : (l.length + rounds) * bytesPerCluster fs ≤ 2 ^ 32) :
    ∃ d' first' l', Written fs d₀ data size d' first' l' ∧
      (allocateClusters fs data size rounds l.length d prev first = (d', some first') ∧
          l'.length = l.length + rounds ∨
        allocateClusters fs data size rounds l.length d prev first = (d', none) ∧
          l'.length < l.length + rounds ∧ ∀ c, ¬ Free fs d' c) := by
  induction rounds generalizing d prev first l with
  | zero => exact ⟨d, first, l, h, .inl ⟨rfl, rfl⟩⟩
  | succ rounds ih =>
    simp only [allocateClusters]
    rcases findFreeCluster_spec hg with ⟨hfull, hnone⟩ | hfree
    · exact ⟨d, first, l, h, .inr ⟨by rw [if_pos hfull], by omega, hnone⟩⟩
    · rw [if_neg (hfree.ne_full hg)]
      have hi' : (l.length + 1) * bytesPerCluster fs ≤ 2 ^ 32 :=
        le_trans (Nat.mul_le_mul_right _ (by omega)) hi
      have hw := takeCluster_written hg h hlast hfree hi'
      have := ih _ hw (fun _ => List.getLast?_concat) (by
        rw [List.length_append, List.length_singleton]
        rwa [Nat.add_right_comm])
      rw [List.length_append, List.length_singleton] at this
      rwa [Nat.add_right_comm] at this

theorem clustersNeeded_mul_le (fs : Fat32) (size : ℕ) :
    clustersNeeded fs size * bytesPerCluster fs ≤ 2 ^ 32 :=
  le_trans (Nat.div_mul_le_self _ _) (u32_lt _).le

theorem allocate_spec (hg : Geometry fs) (d data : Bytes) (size : ℕ) :
    ∃ d' first l, Written fs d data size d' first l ∧
      (allocateClusters fs data size (clustersNeeded fs size) 0 d 0 0 = (d', some first) ∧
          l.length = clustersNeeded fs size ∨
        allocateClusters fs data size (clustersNeeded fs size) 0 d 0 0 = (d', none) ∧
          l.length < clustersNeeded fs size ∧ ∀ c, ¬ Free fs d' c) := by
  have h0 : Written fs d data size d 0 [] :=
    ⟨by simp, fun _ _ => rfl, .inl ⟨rfl, rfl⟩, by simp⟩
  have h := allocateClusters_written 0 hg (clustersNeeded fs size) h0
    (fun h => absurd rfl h) (by simpa using clustersNeeded_mul_le fs size)
  simpa using h

end Rounds

end Fat32Allocation
