import SojebOS.Fat32Growth

/-!
# Reading back what was written, and what a failed write leaves behind

The state of the read loop is a function of the position it has reached, as long as the
clusters of the chain hold the data in order. A write that fails keeps the clusters it
took, so the FAT is unchanged only if it took none.
-/
namespace Fat32RoundTrip

open ByteMemory MachineWord WhileLoop LinkedChain
open Fat32Disk Fat32Directory Fat32Files Fat32Tree Fat32Layout Fat32Volume
open Fat32Entries Fat32Allocation Fat32Growth

section Reading

variable {fs : Fat32} {d data : Bytes} {size pos a k s : ℕ} {l : List ℕ}

/-- What is left to read and what has been copied when the loop has reached `pos`. -/
def readUpTo (data : Bytes) (size pos : ℕ) : ReadState :=
  { size := size - pos
    sectorOffset := 0
    copied := (List.range (min size pos)).map data }

theorem readSector_readUpTo {base : ℕ}
    (hd : ∀ o < 512, pos + o < size → diskRead d (u32 (base + s)) o = data (pos + o)) :
    readSector d base (readUpTo data size pos) s = readUpTo data size (pos + 512) := by
  have hcopy : ∀ n ≤ 512, pos + n ≤ size →
      (List.range pos).map data ++ (List.range n).map (diskRead d (u32 (base + s))) =
        (List.range (pos + n)).map data := by
    intro n hn hsize
    rw [List.range_add, List.map_append, List.map_map]
    congr 1
    refine List.map_congr_left fun o ho => ?_
    have ho := List.mem_range.mp ho
    exact hd o (by omega) (by omega)
  by_cases hlt : pos < size
  · have hpos : 0 < size - pos := by omega
    simp only [readSector, readUpTo, hpos, ↓reduceIte, Nat.sub_zero, Nat.zero_add]
    have hmin : min size pos = pos := by omega
    by_cases hlast : size - pos < 512
    · have hcp := hcopy (size - pos) (by omega) (by omega)
      have h1 : min size (pos + 512) = pos + (size - pos) := by omega
      simp only [hlast, ↓reduceIte, hmin, hcp, h1, ReadState.mk.injEq, and_true]
      omega
    · have hcp := hcopy 512 le_rfl (by omega)
      have h1 : min size (pos + 512) = pos + 512 := by omega
      simp only [hlast, ↓reduceIte, hmin, hcp, h1, ReadState.mk.injEq, and_true]
      omega
  · have hpos : ¬ 0 < size - pos := by omega
    have h1 : min size (pos + 512) = min size pos := by omega
    simp only [readSector, readUpTo, hpos, ↓reduceIte, h1, ReadState.mk.injEq, and_true]
    omega

/-- The clusters of a list hold the data from the `k`-th cluster on. -/
def HoldsData (fs : Fat32) (d data : Bytes) (size k : ℕ) (l : List ℕ) : Prop :=
  ∀ j c, l[j]? = some c → ∀ o < bytesPerCluster fs,
    (k + j) * bytesPerCluster fs + o < size →
      d (clusterAddr fs c + o) = data ((k + j) * bytesPerCluster fs + o)

/-- The sectors of a cluster hold the data from `pos` on. -/
def HoldsCluster (fs : Fat32) (d data : Bytes) (pos c : ℕ) : Prop :=
  ∀ s < fs.sectorsPerCluster, ∀ o < 512,
    diskRead d (u32 (clusterToSector fs c + s)) o = data (pos + 512 * s + o)

theorem readSector_first {base r : ℕ} (hsize : 0 < size)
    (hd : ∀ o < 512 - r, diskRead d (u32 (base + s)) (r + o) = data o) :
    readSector d base ⟨size, r, []⟩ s = readUpTo data size (512 - r) := by
  have hcopy : ∀ n ≤ 512 - r, (List.range n).map (fun j => diskRead d (u32 (base + s)) (r + j)) =
      (List.range n).map data := by
    intro n hn
    refine List.map_congr_left fun o ho => ?_
    exact hd o (by have := List.mem_range.mp ho; omega)
  simp only [readSector, readUpTo, hsize, ↓reduceIte, List.nil_append]
  by_cases hlast : size < 512 - r
  · have hmin : min size (512 - r) = size := Nat.min_eq_left (by omega)
    simp only [hlast, ↓reduceIte, hmin, hcopy size (by omega), ReadState.mk.injEq, and_true]
    omega
  · have hmin : min size (512 - r) = 512 - r := Nat.min_eq_right (by omega)
    simp only [hlast, ↓reduceIte, hmin, hcopy (512 - r) le_rfl]

theorem readSectors_from {base : ℕ} (s n : ℕ)
    (h : ∀ i < n, ∀ o < 512, diskRead d (u32 (base + (s + i))) o = data (pos + 512 * i + o)) :
    (List.range' s n).foldl (readSector d base) (readUpTo data size pos) =
      readUpTo data size (pos + 512 * n) := by
  induction n with
  | zero => rfl
  | succ n ih =>
    rw [List.range'_concat, Nat.one_mul, List.foldl_append, List.foldl_cons, List.foldl_nil,
      ih fun i hi => h i (by omega), readSector_readUpTo]
    · rw [Nat.add_assoc, Nat.mul_succ]
    · exact fun o ho _ => h n (by omega) o ho

/-- The read loop from the start of a cluster copies the rest of the trail, or as much of it
as was asked for. -/
theorem readLoop_from {n m : ℕ}
    (h : ∀ j c, (trail (fat32NextCluster fs d) offChain n a)[j]? = some c →
      HoldsCluster fs d data (pos + j * bytesPerCluster fs) c)
    (hsize : size ≤ pos + n * bytesPerCluster fs ∨
      (trail (fat32NextCluster fs d) offChain n a).length < n) (hn : n < m) :
    run (readBody fs d) m (a, 0, readUpTo data size pos) = some ((List.range (min size
      (pos + (trail (fat32NextCluster fs d) offChain n a).length * bytesPerCluster fs))).map
        data) := by
  induction n generalizing a pos m with
  | zero =>
    obtain ⟨k, rfl⟩ : ∃ k, m = k + 1 := ⟨m - 1, by omega⟩
    have hdone : ¬ 0 < size - pos := by
      rcases hsize with hsize | hshort
      · omega
      · exact absurd hshort (Nat.not_lt_zero _)
    refine run_leave ?_ k
    simp only [readBody, readUpTo, hdone, false_and, ↓reduceIte, trail, List.length_nil,
      Nat.zero_mul, Nat.add_zero]
  | succ n ih =>
    obtain ⟨k, rfl⟩ : ∃ k, m = k + 1 := ⟨m - 1, by omega⟩
    by_cases ha : offChain a
    · refine run_leave ?_ k
      simp only [readBody, readUpTo, ha, not_true_eq_false, and_false, ↓reduceIte,
        trail_ends ha, List.length_nil, Nat.zero_mul, Nat.add_zero]
    rw [trail_succ ha] at h hsize ⊢
    rw [List.length_cons, Nat.succ_mul] at hsize
    rw [List.length_cons, Nat.succ_mul]
    by_cases hmore : 0 < size - pos
    · have hb : 512 * fs.sectorsPerCluster = bytesPerCluster fs := Nat.mul_comm _ _
      have hs : (List.range' 0 fs.sectorsPerCluster).foldl (readSector d (clusterToSector fs a))
          (readUpTo data size pos) = readUpTo data size (pos + 512 * fs.sectorsPerCluster) := by
        apply readSectors_from
        intro i hi o ho
        rw [Nat.zero_add, h 0 a rfl i hi o ho, Nat.zero_mul, Nat.add_zero]
      rw [hb] at hs
      rw [run_again (t := (fat32NextCluster fs d a, 0,
        readUpTo data size (pos + bytesPerCluster fs)))]
      · rw [Nat.add_comm (_ * bytesPerCluster fs), ← Nat.add_assoc]
        apply ih
        · intro j c hj
          have hd := h (j + 1) c hj
          rwa [Nat.succ_mul, Nat.add_comm (j * bytesPerCluster fs), ← Nat.add_assoc] at hd
        · omega
        · omega
      · rw [← hs]
        simp only [readBody, readUpTo, hmore, ha, not_false_eq_true, and_self, ↓reduceIte,
          Nat.zero_div, Nat.zero_mod, Nat.sub_zero]
    · refine run_leave ?_ k
      simp only [readBody, readUpTo, hmore, false_and, ↓reduceIte]
      rw [Nat.min_eq_left (by omega), Nat.min_eq_left (by omega)]

theorem skip_clusters (hpos : 0 < bytesPerCluster fs) {n offset : ℕ}
    (hl : Linked (fat32NextCluster fs d) offChain a l)
    (hoff : offset < l.length * bytesPerCluster fs) (hn : l.length < n) :
    ∃ pre b suf, l = pre ++ b :: suf ∧ pre.length = offset / bytesPerCluster fs ∧
      Linked (fat32NextCluster fs d) offChain b (b :: suf) ∧
      run (skipBody fs d) n (a, offset) = some (some (b, offset % bytesPerCluster fs)) := by
  induction l generalizing a n offset with
  | nil =>
    rw [List.length_nil, Nat.zero_mul] at hoff
    omega
  | cons c l ih =>
    obtain ⟨m, rfl⟩ : ∃ m, n = m + 1 := ⟨n - 1, by simp at hn; omega⟩
    cases hl with
    | cons ha hl =>
      by_cases hmore : bytesPerCluster fs ≤ offset
      · rw [List.length_cons, Nat.succ_mul] at hoff
        obtain ⟨pre, b, suf, rfl, hpre, hb, hrun⟩ := ih hl
          (show offset - bytesPerCluster fs < l.length * bytesPerCluster fs by omega)
          (by simpa using hn)
        have hon : ¬offChain (fat32NextCluster fs d c) :=
          fun hend => absurd (hl.eq_nil hend) (by simp)
        refine ⟨c :: pre, b, suf, rfl, ?_, hb, ?_⟩
        · rw [List.length_cons, hpre, Nat.div_eq_sub_div hpos hmore]
        · rw [run_again (t := (fat32NextCluster fs d c, offset - bytesPerCluster fs)), hrun,
            Nat.mod_eq_sub_mod hmore]
          simp only [skipBody, hmore, hon, ↓reduceIte]
      · refine ⟨[], c, l, rfl, ?_, .cons ha hl, ?_⟩
        · rw [Nat.div_eq_of_lt (by omega)]
          rfl
        · rw [Nat.mod_eq_of_lt (by omega)]
          exact run_leave (by simp only [skipBody, hmore, ↓reduceIte]) m

theorem readLoop_first (data : Bytes) (size : ℕ) {n m r : ℕ} (hr : r < bytesPerCluster fs)
    (ha : ¬ offChain a)
    (hfirst : ∀ s < fs.sectorsPerCluster, ∀ o < 512, r ≤ 512 * s + o →
      diskRead d (u32 (clusterToSector fs a + s)) o = data (512 * s + o - r))
    (hrest : ∀ j c, (trail (fat32NextCluster fs d) offChain n (fat32NextCluster fs d a))[j]? =
      some c → HoldsCluster fs d data (bytesPerCluster fs - r + j * bytesPerCluster fs) c)
    (hn : (trail (fat32NextCluster fs d) offChain n (fat32NextCluster fs d a)).length < n)
    (hm : n + 1 < m) :
    run (readBody fs d) m (a, r, ⟨size, 0, []⟩) = some ((List.range (min size
      (bytesPerCluster fs - r + (trail (fat32NextCluster fs d) offChain n
        (fat32NextCluster fs d a)).length * bytesPerCluster fs))).map data) := by
  obtain ⟨k, rfl⟩ : ∃ k, m = k + 1 := ⟨m - 1, by omega⟩
  by_cases hsize : 0 < size
  · have hb : bytesPerCluster fs = 512 * fs.sectorsPerCluster := Nat.mul_comm _ _
    have hcount : fs.sectorsPerCluster - r / 512 = fs.sectorsPerCluster - r / 512 - 1 + 1 := by
      omega
    have hsectors : (List.range' (r / 512) (fs.sectorsPerCluster - r / 512)).foldl
        (readSector d (clusterToSector fs a)) ⟨size, r % 512, []⟩ =
        readUpTo data size (bytesPerCluster fs - r) := by
      rw [hcount, List.range'_succ, List.foldl_cons, readSector_first hsize, readSectors_from]
      · congr 1
        omega
      · intro i hi o ho
        rw [hfirst _ (by omega) o ho (by omega)]
        congr 1
        omega
      · intro o ho
        rw [hfirst _ (by omega) _ (by omega) (by omega)]
        congr 1
        omega
    rw [run_again (t := (fat32NextCluster fs d a, 0, readUpTo data size
      (bytesPerCluster fs - r)))]
    · exact readLoop_from hrest (.inr hn) (by omega)
    · simp only [readBody, hsize, ha, not_false_eq_true, and_self, ↓reduceIte, hsectors]
  · obtain rfl : size = 0 := by omega
    refine run_leave ?_ k
    simp only [readBody, lt_irrefl, false_and, ↓reduceIte, Nat.zero_min, List.range_zero,
      List.map_nil]

/-- Byte `i` of the sectors of the clusters of a list, one after the other. -/
def streamByte (fs : Fat32) (d : Bytes) (l : List ℕ) (i : ℕ) : UInt8 :=
  diskRead d (u32 (clusterToSector fs (l.getD (i / bytesPerCluster fs) 0) +
    i % bytesPerCluster fs / 512)) (i % bytesPerCluster fs % 512)

theorem streamByte_at {c j s o : ℕ} (hj : l[j]? = some c) (hs : s < fs.sectorsPerCluster)
    (ho : o < 512) : streamByte fs d l (j * bytesPerCluster fs + 512 * s + o) =
      diskRead d (u32 (clusterToSector fs c + s)) o := by
  have hb : bytesPerCluster fs = 512 * fs.sectorsPerCluster := Nat.mul_comm _ _
  have hlt : 512 * s + o < bytesPerCluster fs := by omega
  have hdiv : (j * bytesPerCluster fs + 512 * s + o) / bytesPerCluster fs = j := by
    rw [Nat.add_assoc, Nat.mul_comm, Nat.mul_add_div (by omega), Nat.div_eq_of_lt hlt,
      Nat.add_zero]
  have hmod : (j * bytesPerCluster fs + 512 * s + o) % bytesPerCluster fs = 512 * s + o := by
    rw [Nat.add_assoc, Nat.mul_comm, Nat.mul_add_mod, Nat.mod_eq_of_lt hlt]
  have hsector : (512 * s + o) / 512 = s := by omega
  have hoffset : (512 * s + o) % 512 = o := by omega
  rw [streamByte, hdiv, hmod, hsector, hoffset, List.getD_eq_getElem?_getD, hj, Option.getD_some]

theorem streamByte_holds {c j : ℕ} (hj : l[j]? = some c) :
    HoldsCluster fs d (streamByte fs d l) (j * bytesPerCluster fs) c :=
  fun _ hs _ ho => (streamByte_at hj hs ho).symm

theorem readAbsolute_stream (hl : Linked (fat32NextCluster fs d) offChain a l) {offset : ℕ}
    (hoff : offset < l.length * bytesPerCluster fs) (size : ℕ) :
    fat32ReadAbsolute fs d a offset size =
      some ((List.range (min size (l.length * bytesPerCluster fs - offset))).map
        fun i => streamByte fs d l (offset + i)) := by
  have hpos : 0 < bytesPerCluster fs := Nat.pos_of_ne_zero fun h0 => by
    rw [h0, Nat.mul_zero] at hoff
    omega
  have hlen := offChain_length_lt hl
  obtain ⟨pre, b, suf, rfl, hpre, hb, hskip⟩ :=
    skip_clusters hpos hl hoff (Nat.lt_of_succ_lt hlen)
  have hdecomp := Nat.div_add_mod' offset (bytesPerCluster fs)
  rw [← hpre] at hdecomp
  have hrem := Nat.mod_lt offset hpos
  have hcapacity : bytesPerCluster fs - offset % bytesPerCluster fs +
      suf.length * bytesPerCluster fs =
      (pre ++ b :: suf).length * bytesPerCluster fs - offset := by
    rw [List.length_append, List.length_cons, Nat.add_mul, Nat.succ_mul]
    omega
  simp only [List.length_append, List.length_cons] at hlen
  cases hb with
  | cons hon hsuf =>
    have htrail := hsuf.trail_eq (n := suf.length + 1) (by omega)
    have hloop := readLoop_first (fun i => streamByte fs d (pre ++ b :: suf) (offset + i)) size
      (n := suf.length + 1) (m := wordCount) hrem hon ?_ ?_ (by rw [htrail]; omega) (by omega)
    · rw [htrail, hcapacity] at hloop
      simp only [fat32ReadAbsolute, hskip, Option.bind_eq_bind, Option.bind_some, hloop]
    · intro s hs o ho hr
      have hat := streamByte_at (d := d) (l := pre ++ b :: suf) (j := pre.length) (c := b)
        (by simp) hs ho
      rw [← hat]
      congr 1
      omega
    · intro j c hj s hs o ho
      rw [htrail] at hj
      have hat := streamByte_at (d := d) (l := pre ++ b :: suf) (j := pre.length + (j + 1))
        (c := c) (by simpa [List.getElem?_append_right] using hj) hs ho
      rw [← hat]
      congr 1
      rw [Nat.add_mul, Nat.succ_mul]
      omega

theorem readAbsolute_zero (hpos : 0 < bytesPerCluster fs) (a size : ℕ) :
    fat32ReadAbsolute fs d a 0 size = run (readBody fs d) wordCount (a, 0, ⟨size, 0, []⟩) := by
  have hskip : run (skipBody fs d) wordCount (a, 0) = some (some (a, 0)) :=
    run_leave (by simp only [skipBody, Nat.not_le.mpr hpos, ↓reduceIte]) _
  rw [fat32ReadAbsolute, hskip]
  rfl

theorem readLoop_trail {n : ℕ} (hsize : size ≤ n * bytesPerCluster fs) (hn : n < wordCount) :
    run (readBody fs d) wordCount (a, 0, ⟨size, 0, []⟩) = some ((List.range (min size
      ((trail (fat32NextCluster fs d) offChain n a).length * bytesPerCluster fs))).map
        (streamByte fs d (trail (fat32NextCluster fs d) offChain n a))) := by
  have hloop : run (readBody fs d) wordCount (a, 0, readUpTo
      (streamByte fs d (trail (fat32NextCluster fs d) offChain n a)) size 0) = _ :=
    readLoop_from (n := n) (fun j c hj => by rw [Nat.zero_add]; exact streamByte_holds hj)
      (.inl (by omega)) hn
  rw [readUpTo, Nat.min_zero, List.range_zero, List.map_nil, Nat.sub_zero, Nat.zero_add] at hloop
  exact hloop

theorem bytesPerCluster_pos (hg : Geometry fs) : 0 < bytesPerCluster fs := by
  have := hg.perCluster_pos
  simp only [bytesPerCluster]
  omega

/-- Byte `i` of the clusters of a list, one after the other. -/
def chainByte (fs : Fat32) (d : Bytes) (l : List ℕ) (i : ℕ) : UInt8 :=
  d (clusterAddr fs (l.getD (i / bytesPerCluster fs) 0) + i % bytesPerCluster fs)

theorem chainByte_stream (hg : Geometry fs) (hr : ∀ c ∈ l, InRange fs c) {i : ℕ}
    (hi : i < l.length * bytesPerCluster fs) : streamByte fs d l i = chainByte fs d l i := by
  have hb : bytesPerCluster fs = 512 * fs.sectorsPerCluster := Nat.mul_comm _ _
  have hk : i / bytesPerCluster fs < l.length :=
    Nat.div_lt_of_lt_mul (by rw [Nat.mul_comm]; exact hi)
  have hmod := Nat.mod_lt i (bytesPerCluster_pos hg)
  rw [streamByte, chainByte, List.getD_eq_getElem _ _ hk, diskRead_apply,
    sector_addr hg (hr _ (List.getElem_mem hk)) (by omega), Nat.add_assoc, Nat.div_add_mod]

theorem readAbsolute_at (hg : Geometry fs) (hl : Chain fs d a l) {offset : ℕ}
    (hoff : offset < l.length * bytesPerCluster fs) (size : ℕ) :
    fat32ReadAbsolute fs d a offset size =
      some ((List.range (min size (l.length * bytesPerCluster fs - offset))).map
        fun i => chainByte fs d l (offset + i)) := by
  rw [readAbsolute_stream (hl.linked_offChain hg) hoff]
  refine congrArg some (List.map_congr_left fun i hi => chainByte_stream hg hl.inRange ?_)
  have hi := List.mem_range.mp hi
  omega

theorem readAbsolute_eq (hg : Geometry fs) (hl : Chain fs d a l)
    (h : HoldsData fs d data size 0 l) (hsize : size ≤ l.length * bytesPerCluster fs) :
    fat32ReadAbsolute fs d a 0 size = some ((List.range size).map data) := by
  have hpos := bytesPerCluster_pos hg
  have hcapacity : 0 < l.length * bytesPerCluster fs :=
    Nat.mul_pos (List.length_pos_of_ne_nil hl.nonempty) hpos
  rw [readAbsolute_at hg hl hcapacity, Nat.sub_zero, Nat.min_eq_left hsize]
  refine congrArg some (List.map_congr_left fun i hi => ?_)
  have hi := List.mem_range.mp hi
  have hk : i / bytesPerCluster fs < l.length :=
    Nat.div_lt_of_lt_mul (by rw [Nat.mul_comm]; omega)
  have hat := h (i / bytesPerCluster fs) l[i / bytesPerCluster fs]
    (List.getElem?_eq_getElem hk) (i % bytesPerCluster fs) (Nat.mod_lt i hpos)
  rw [Nat.zero_add, Nat.div_add_mod'] at hat
  rw [Nat.zero_add, chainByte, List.getD_eq_getElem _ _ hk, hat hi]

end Reading

section Counting

variable {fs : Fat32} {skip : ℕ → List UInt8 → Prop} {d d₁ data : Bytes} {cwd size c : ℕ}
variable {first : ℕ} {fresh : List ℕ} {name : List UInt8}

def freeClusters (fs : Fat32) (d : Bytes) : List ℕ :=
  (List.range (128 * fs.fatSize)).filter fun c => 2 ≤ c ∧ fat32NextCluster fs d c = 0

theorem mem_freeClusters : c ∈ freeClusters fs d ↔ Free fs d c := by
  simp only [freeClusters, Free, InRange, List.mem_filter, List.mem_range, decide_eq_true_eq]
  tauto

theorem written_nodup (h : Written fs d data size d₁ first fresh) : fresh.Nodup := by
  rcases h.extent with ⟨-, rfl⟩ | hc
  · exact List.nodup_nil
  · exact hc.linked.nodup

theorem written_length_le (h : Written fs d data size d₁ first fresh) :
    fresh.length ≤ (freeClusters fs d).length :=
  ((written_nodup h).subperm fun c hc => mem_freeClusters.mpr (h.free c hc)).length_le

theorem written_taken (hg : Geometry fs) (h : Written fs d data size d₁ first fresh)
    (hc : Free fs d c) (hc' : ¬ Free fs d₁ c) : c ∈ fresh := by
  by_contra hn
  refine hc' ⟨hc.1, ?_⟩
  rw [← hc.2]
  refine nextCluster_congr hg hc.1.2 fun x hx => h.outside x ?_
  rintro ⟨c', hm, hx'⟩
  have hne : c ≠ c' := by
    rintro rfl
    exact hn hm
  exact territory_disjoint hg hc.1 (h.free c' hm).1 hne (.inl hx) hx'

theorem written_all_taken (hg : Geometry fs) (h : Written fs d data size d₁ first fresh)
    (hfull : ∀ c, ¬ Free fs d₁ c) : (freeClusters fs d).length ≤ fresh.length := by
  have hn : (freeClusters fs d).Nodup := List.nodup_range.filter _
  refine (hn.subperm fun c hc => ?_).length_le
  exact written_taken hg h (mem_freeClusters.mp hc) (hfull c)

theorem writeFile_fits (hw : WellFormed fs skip d cwd) (name : List UInt8) (data : Bytes)
    (hspace : clustersNeeded fs size ≤ (freeClusters fs d).length)
    (hslot : ∃ p, SlotOf fs d cwd p ∧ ¬ Live d p) :
    ∃ d₁ first fresh l pre p post, Written fs d data size d₁ first fresh ∧
      fresh.length = clustersNeeded fs size ∧ Chain fs d cwd l ∧
      slots fs l = pre ++ p :: post ∧ ¬ Live d p ∧ (∀ q ∈ pre, Live d q) ∧
      fat32WriteFile fs d cwd name data size =
        some (fillEntry d₁ p (formatFilename name) attrArchive first size, .stored) := by
  obtain ⟨d₁, first, fresh, hwr, ⟨-, hlt, hfull⟩ | ⟨-, hlive, -⟩ | h⟩ :=
    writeFile_spec hw name data size
  · have := written_all_taken hw.geometry hwr hfull
    omega
  · obtain ⟨p, hp, hn⟩ := hslot
    exact absurd (hlive p hp) hn
  · obtain ⟨hlen, l, pre, p, post, h⟩ := h
    exact ⟨d₁, first, fresh, l, pre, p, post, hwr, hlen, h⟩

end Counting

section Failure

variable {fs : Fat32} {skip : ℕ → List UInt8 → Prop} {d d₁ data : Bytes} {cwd size : ℕ}
variable {first : ℕ} {fresh : List ℕ}

/-- When no entry has been stored, every link of the FAT is as it was. -/
def LeaksNothing (fs : Fat32) (d : Bytes) (cwd : ℕ) (name : List UInt8) (data : Bytes)
    (size : ℕ) : Prop :=
  ∀ d' exit, fat32WriteFile fs d cwd name data size = some (d', exit) → exit ≠ .stored →
    ∀ c < 128 * fs.fatSize, fat32NextCluster fs d' c = fat32NextCluster fs d c

theorem written_nil (h : Written fs d data size d₁ first []) : d₁ = d :=
  funext fun x => h.outside x fun ⟨_, hc, _⟩ => by simp at hc

theorem written_changes_fat (h : Written fs d data size d₁ first fresh) (hne : fresh ≠ []) :
    ∃ c < 128 * fs.fatSize, fat32NextCluster fs d₁ c ≠ fat32NextCluster fs d c := by
  obtain ⟨c, hc⟩ := List.exists_mem_of_ne_nil _ hne
  have hfree := h.free c hc
  refine ⟨c, hfree.1.2, ?_⟩
  rw [hfree.2]
  rcases h.extent with ⟨-, rfl⟩ | hch
  · exact absurd rfl hne
  · exact hch.next_ne_zero hc

theorem failed_write_leaks_nothing_iff (hw : WellFormed fs dotEntry d cwd)
    (name : List UInt8) (data : Bytes) (size : ℕ) :
    LeaksNothing fs d cwd name data size ↔
      clustersNeeded fs size = 0 ∨ freeClusters fs d = [] ∨
        clustersNeeded fs size ≤ (freeClusters fs d).length ∧
          ∃ p, SlotOf fs d cwd p ∧ ¬ Live d p := by
  constructor
  · intro h
    by_contra hc
    simp only [not_or] at hc
    obtain ⟨hneed, hfree, hfits⟩ := hc
    obtain ⟨d₁, first, fresh, hwr, ⟨hrun, -, hfull⟩ | ⟨hlen, -, hrun⟩ | hst⟩ :=
      writeFile_spec hw name data size
    · obtain ⟨c, hcf⟩ := List.exists_mem_of_ne_nil _ hfree
      have hmem := written_taken hw.geometry hwr (mem_freeClusters.mp hcf) (hfull c)
      obtain ⟨c', hc', hne⟩ := written_changes_fat hwr (List.ne_nil_of_mem hmem)
      exact hne (h d₁ _ hrun (by simp) c' hc')
    · have hne : fresh ≠ [] := by
        rintro rfl
        exact hneed (by simpa using hlen.symm)
      obtain ⟨c', hc', hne⟩ := written_changes_fat hwr hne
      exact hne (h d₁ _ hrun (by simp) c' hc')
    · obtain ⟨hlen, l, pre, p, post, hl, hs, hp, -⟩ := hst
      refine hfits ⟨hlen ▸ written_length_le hwr, p, ⟨l, hl, ?_⟩, hp⟩
      rw [hs]
      simp
  · intro h d' exit hrun hexit c _
    obtain ⟨d₁, first, fresh, hwr, hout⟩ := writeFile_spec hw name data size
    have hkept : fresh = [] → d' = d₁ → fat32NextCluster fs d' c = fat32NextCluster fs d c := by
      rintro rfl rfl
      rw [written_nil hwr]
    rcases h with hneed | hfree | ⟨hspace, hslot⟩
    · have hnil : ¬ fresh.length < clustersNeeded fs size := by omega
      rcases hout with ⟨-, hlt, -⟩ | ⟨hlen, -, hrun'⟩ | ⟨-, l, pre, p, post, -, -, -, -, hrun'⟩
      · exact absurd hlt hnil
      · rw [hrun'] at hrun
        cases hrun
        exact hkept (List.length_eq_zero_iff.mp (hlen.trans hneed)) rfl
      · rw [hrun'] at hrun
        cases hrun
        exact absurd rfl hexit
    · have hnil : fresh = [] := by
        have hle := written_length_le hwr
        rw [hfree] at hle
        exact List.length_eq_zero_iff.mp (Nat.le_zero.mp hle)
      rcases hout with ⟨hrun', -⟩ | ⟨-, -, hrun'⟩ | ⟨-, l, pre, p, post, -, -, -, -, hrun'⟩
      · rw [hrun'] at hrun
        cases hrun
        exact hkept hnil rfl
      · rw [hrun'] at hrun
        cases hrun
        exact hkept hnil rfl
      · rw [hrun'] at hrun
        cases hrun
        exact absurd rfl hexit
    · obtain ⟨_, _, _, _, _, _, _, -, -, -, -, -, -, hrun'⟩ :=
        writeFile_fits hw name data hspace hslot
      rw [hrun'] at hrun
      cases hrun
      exact absurd rfl hexit

theorem failed_write_leaks_nothing_iff_blankDisk :
    LeaksNothing tinyVolume blankDisk 2 [0x41] (fun _ => 7) 1000 ↔
      clustersNeeded tinyVolume 1000 = 0 ∨ freeClusters tinyVolume blankDisk = [] ∨
        clustersNeeded tinyVolume 1000 ≤ (freeClusters tinyVolume blankDisk).length ∧
          ∃ p, SlotOf tinyVolume blankDisk 2 p ∧ ¬ Live blankDisk p :=
  failed_write_leaks_nothing_iff (blankDisk_wellFormed dotEntry) _ _ _

def crowdedDisk : Bytes := fun x =>
  if 512 ≤ x ∧ x < 1024 ∧ ¬ (524 ≤ x ∧ x < 528) then 0xFF else 0

/-- A file of two clusters takes the only free one and keeps it. -/
theorem crowdedDisk_leaks : ¬ ∀ (fs : Fat32) (d : Bytes) (cwd : ℕ),
    WellFormed fs dotEntry d cwd → ∀ (name : List UInt8) (data : Bytes) (size : ℕ),
      LeaksNothing fs d cwd name data size := by
  intro h
  have hw : WellFormed tinyVolume dotEntry crowdedDisk 2 := by
    refine wellFormed_of_empty_root (l := [2]) (by decide) ⟨?_, ?_, by simp⟩ (by decide)
    · exact .cons (by decide) (.nil (by decide))
    · intro c hc
      rw [List.mem_singleton.mp hc]
      exact ⟨by decide, by decide⟩
  have hrun : (fat32WriteFile tinyVolume crowdedDisk 2 [0x41] (fun _ => 7) 1000).map
      (fun r => (r.2, fat32NextCluster tinyVolume r.1 3)) =
        some (.noFreeCluster, 0x0FFFFFFF) := by decide
  obtain ⟨⟨d', exit⟩, hd', hr⟩ := Option.map_eq_some_iff.mp hrun
  obtain ⟨rfl, hnext⟩ := Prod.mk.inj hr
  have hkept := h tinyVolume crowdedDisk 2 hw [0x41] (fun _ => 7) 1000 d' _ hd' (by simp) 3
    (by decide)
  rw [hnext] at hkept
  revert hkept
  decide

end Failure

section RoundTrip

variable {fs : Fat32} {skip : ℕ → List UInt8 → Prop} {d data : Bytes} {cwd size : ℕ}
variable {name : List UInt8}

theorem size_le_clusters (hg : Geometry fs) (hsize : size + bytesPerCluster fs ≤ 2 ^ 32) :
    size ≤ clustersNeeded fs size * bytesPerCluster fs := by
  have hpos := bytesPerCluster_pos hg
  have hnum : sub32 (u32 (size + bytesPerCluster fs)) 1 = size + bytesPerCluster fs - 1 := by
    unfold sub32 u32
    omega
  rw [clustersNeeded, hnum]
  generalize bytesPerCluster fs = b at hpos ⊢
  have h1 := Nat.div_add_mod (size + b - 1) b
  have h2 := Nat.mod_lt (size + b - 1) hpos
  rw [Nat.mul_comm] at h1
  omega

theorem recorded_found {d₁ : Bytes} {first p : ℕ} {l fresh pre post : List ℕ} (hg : Geometry fs)
    (hwr : Written fs d data size d₁ first fresh) (hl : Chain fs d cwd l)
    (hs : slots fs l = pre ++ p :: post) (hpre : ∀ q ∈ pre, Live d q)
    (hname : name.getD 0 0 ≠ deletedMark)
    (hnew : ∀ p, SlotOf fs d cwd p → Named d p → (readEntry d p).name ≠ formatFilename name) :
    fat32FindFile fs (fillEntry d₁ p (formatFilename name) attrArchive first size) cwd name =
      some (some (readEntry (fillEntry d₁ p (formatFilename name) attrArchive first size) p)) := by
  have hof : SlotOf fs d cwd p := ⟨l, hl, by rw [hs]; simp⟩
  obtain ⟨hgr, -⟩ := (written_grown hwr).fillEntry (formatFilename name) attrArchive
      size hg hof hwr.extent
  generalize hd' : fillEntry d₁ p (formatFilename name) attrArchive first size = d' at *
  have hofs : ∀ q ∈ some p, SlotOf fs d cwd q := by
    rintro q ⟨⟩
    exact hof
  have hfirst : d' p = (formatFilename name).getD 0 0 := by rw [← hd', fillEntry_first]
  have hlive : Live d' p := by
    constructor
    · rw [hfirst]
      exact formatFilename_ne_zero name
    · rw [hfirst]
      exact formatFilename_ne_deleted hname
  have hmatch : Matches d' (formatFilename name) p := by
    constructor
    · rw [← hd', readEntry_fillEntry_attr]
      decide
    · rw [← hd', readEntry_fillEntry_name (formatFilename_length name)]
  have hbefore : ∀ q ∈ pre, Live d' q ∧ ¬ Matches d' (formatFilename name) q := by
    intro q hq
    have hqs : SlotOf fs d cwd q := ⟨l, hl, by rw [hs]; simp [hq]⟩
    have hne : (some p) ≠ some q := by
      rintro ⟨⟩
      have hnd := slots_nodup hg hl.inRange hl.linked.nodup
      rw [hs, List.nodup_append] at hnd
      exact hnd.2.2 p hq p List.mem_cons_self rfl
    have hkept := hgr.slot_kept hg hofs hqs hne
    refine ⟨(live_congr hkept).mpr (hpre q hq), fun hm => ?_⟩
    rw [Matches, readEntry_congr hkept] at hm
    exact hnew q hqs ⟨hpre q hq, hm.1⟩ hm.2
  rw [findFile_eq hg (hgr.chain_kept hg hofs hl),
    search_first hs hlive hmatch fun q hq => ⟨(hbefore q hq).1.1, fun _ => (hbefore q hq).2⟩]
  rfl

theorem recorded_holds {d₁ : Bytes} {first p : ℕ} {l fresh : List ℕ} (name : List UInt8)
    (attr : UInt8) (hg : Geometry fs) (hwr : Written fs d data size d₁ first fresh)
    (hl : Chain fs d cwd l) (hp : p ∈ slots fs l) :
    HoldsData fs (fillEntry d₁ p (formatFilename name) attr first size) data size 0 fresh := by
  intro k c hk o ho hko
  rw [Nat.zero_add] at hko ⊢
  rw [← hwr.contents k c hk o ho hko]
  apply fillEntry_outside
  intro hm
  have hc := List.mem_of_getElem? hk
  refine (written_grown hwr).not_fresh hg (.inr hl) (slotBytes_subset hp hm) ⟨c, hc, .inr ?_⟩
  simp only [dataArea, Set.mem_Ico]
  omega

theorem stored_then_found (data : Bytes) (hw : WellFormed fs skip d cwd)
    (hname : name.getD 0 0 ≠ deletedMark)
    (hfresh : ∀ p, SlotOf fs d cwd p → Named d p →
      (readEntry d p).name ≠ formatFilename name)
    (hsize : size + bytesPerCluster fs ≤ 2 ^ 32)
    (hspace : clustersNeeded fs size ≤ (freeClusters fs d).length)
    (hslot : ∃ p, SlotOf fs d cwd p ∧ ¬ Live d p) :
    ∃ d' node, fat32WriteFile fs d cwd name data size = some (d', .stored) ∧
      fat32FileLookup fs d' cwd name = some (some node) ∧ node.size = size ∧
      vfsRead fs d' node 0 size = some ((List.range size).map data) := by
  have hg := hw.geometry
  have hbpc := bytesPerCluster_pos hg
  obtain ⟨d₁, first, fresh, l, pre, p, post, hwr, hlen, hl, hs, -, hpre, hrun⟩ :=
    writeFile_fits hw name data hspace hslot
  have hp : p ∈ slots fs l := by
    rw [hs]
    simp
  have hext := ((written_grown hwr).fillEntry (formatFilename name) attrArchive size hg
    ⟨l, hl, hp⟩ hwr.extent).2
  have hfind := recorded_found hg hwr hl hs hpre hname hfresh
  have hholds := recorded_holds name attrArchive hg hwr hl hp
  have hfile : (readEntry (fillEntry d₁ p (formatFilename name) attrArchive first size)
      p).fileSize = size := readEntry_fillEntry_fileSize (by omega)
  generalize fillEntry d₁ p (formatFilename name) attrArchive first size = d' at *
  refine ⟨d', _, hrun, by rw [fat32FileLookup, hfind]; rfl, hfile, ?_⟩
  -- reading from the start of the new chain
  simp only [vfsRead, fat32VfsRead, hfile]
  by_cases h0 : size ≤ 0
  · rw [if_pos h0, Nat.le_zero.mp h0]
    rfl
  · have hlt : u32 (0 + size) = size := by rw [Nat.zero_add, u32_of_lt (by omega)]
    rw [if_neg h0, hlt, if_neg (lt_irrefl size)]
    have hneed := size_le_clusters hg hsize
    have hch : Chain fs d' (readEntry d' p).firstCluster fresh := by
      rcases hext with ⟨-, rfl⟩ | hch
      · rw [← hlen, List.length_nil, Nat.zero_mul] at hneed
        exact absurd hneed h0
      · exact hch
    exact readAbsolute_eq hg hch hholds (hlen ▸ hneed)

/-- Write then read: the lookup finds the new entry, and reading it gives the data. -/
theorem write_then_read (hw : WellFormed fs dotEntry d cwd)
    (hname : name.getD 0 0 ≠ deletedMark)
    (hfresh : ∀ p, SlotOf fs d cwd p → Named d p →
      (readEntry d p).name ≠ formatFilename name)
    (hsize : size + bytesPerCluster fs ≤ 2 ^ 32)
    (hspace : clustersNeeded fs size ≤ (freeClusters fs d).length)
    (hslot : ∃ p, SlotOf fs d cwd p ∧ ¬ Live d p) :
    ∃ d' node, fat32WriteFile fs d cwd name data size = some (d', .stored) ∧
      fat32FileLookup fs d' cwd name = some (some node) ∧ node.size = size ∧
      vfsRead fs d' node 0 size = some ((List.range size).map data) :=
  stored_then_found _ hw hname hfresh hsize hspace hslot

theorem write_then_read_blankDisk :
    ∃ d' node, fat32WriteFile tinyVolume blankDisk 2 [0x41] UInt8.ofNat 1000 =
        some (d', .stored) ∧
      fat32FileLookup tinyVolume d' 2 [0x41] = some (some node) ∧ node.size = 1000 ∧
      vfsRead tinyVolume d' node 0 1000 = some ((List.range 1000).map UInt8.ofNat) := by
  refine write_then_read (blankDisk_wellFormed dotEntry) (by decide) ?_ (by decide)
    (by decide +kernel) ⟨1024, ⟨[2], blankDisk_chain, by decide⟩, by decide⟩
  intro p hp hn
  have hzero : ∀ q ∈ slots tinyVolume [2], blankDisk q = 0 := by decide
  exact absurd (hzero p (hp.mem blankDisk_chain)) hn.live.1

end RoundTrip

end Fat32RoundTrip
