import SojebOS.Fat32RoundTrip

/-!
# A read is a slice of the chain

The clusters of a chain, one after the other, are one sequence of bytes. A read at an offset
gives the part of it that starts there, wherever it starts and ends, and stores it in front
of the buffer. Nothing is assumed of the volume beyond the chain.
-/
namespace Fat32ReadSlices

open ByteMemory MachineWord WhileLoop LinkedChain
open Fat32Disk Fat32Directory Fat32Files Fat32Volume Fat32RoundTrip

def clusterBytes (fs : Fat32) (d : Bytes) (c : ℕ) : List UInt8 :=
  (List.range fs.sectorsPerCluster).flatMap fun s =>
    (List.range 512).map (diskRead d (u32 (clusterToSector fs c + s)))

def chainBytes (fs : Fat32) (d : Bytes) (l : List ℕ) : List UInt8 := l.flatMap (clusterBytes fs d)

/-- The memory, what has been read and what is left, and the offset in the next sector. -/
structure CopyState where
  memory : Bytes
  totalRead : ℕ
  size : ℕ
  sectorOffset : ℕ

/-- Copy from sector `s` of a cluster to the buffer, unless everything has been read. -/
def copySector (d : Bytes) (sectorBase buffer : ℕ) (r : CopyState) (s : ℕ) : CopyState :=
  if 0 < r.size then
    let sectorBuffer := diskRead d (u32 (sectorBase + s))
    let chunk := if r.size < 512 - r.sectorOffset then r.size else 512 - r.sectorOffset
    { memory := copyIn r.memory (buffer + r.totalRead) chunk (window sectorBuffer r.sectorOffset)
      totalRead := r.totalRead + chunk
      size := r.size - chunk
      sectorOffset := 0 }
  else r

def copyBody (fs : Fat32) (d : Bytes) (buffer : ℕ) (s : ℕ × ℕ × CopyState) :
    Iteration (ℕ × ℕ × CopyState) (Bytes × ℕ) :=
  let (cluster, offset, r) := s
  if 0 < r.size ∧ ¬ offChain cluster then
    let sectorIndex := offset / 512
    let r := (List.range' sectorIndex (fs.sectorsPerCluster - sectorIndex)).foldl
      (copySector d (clusterToSector fs cluster) buffer) { r with sectorOffset := offset % 512 }
    .again (fat32NextCluster fs d cluster, 0, r)
  else .leave (r.memory, r.totalRead)

/-- `fat32_read_absolute` with the memory it writes to: the memory after the read, and the
value returned. -/
def fat32ReadAbsoluteInto (fs : Fat32) (d : Bytes) (startCluster offset size : ℕ) (memory : Bytes)
    (buffer : ℕ) : Option (Bytes × ℕ) := do
  let skipped ← run (skipBody fs d) wordCount (startCluster, offset)
  match skipped with
  | none => return (memory, 0)
  | some (cluster, offset) =>
    run (copyBody fs d buffer) wordCount
      (cluster, offset, { memory, totalRead := 0, size, sectorOffset := 0 })

section Copies

variable {fs : Fat32} {d m : Bytes} {buffer base : ℕ}

/-- The memory with the bytes of a list from `buffer` on. -/
def storeBytes (m : Bytes) (buffer : ℕ) (bytes : List UInt8) : Bytes :=
  copyIn m buffer bytes.length fun i => bytes.getD i 0

theorem storeBytes_nil : storeBytes m buffer [] = m :=
  funext fun x => copyIn_outside (by simp only [List.length_nil]; omega)

theorem storeBytes_append (bytes more : List UInt8) :
    storeBytes m buffer (bytes ++ more) =
      storeBytes (storeBytes m buffer bytes) (buffer + bytes.length) more := by
  funext x
  simp only [storeBytes, copyIn, List.length_append]
  by_cases h0 : x < buffer
  · rw [if_neg (by omega), if_neg (by omega), if_neg (by omega)]
  by_cases h1 : x < buffer + bytes.length
  · rw [if_pos (by omega), if_neg (by omega), if_pos (by omega),
      List.getD_append _ _ _ _ (by omega)]
  by_cases h2 : x < buffer + bytes.length + more.length
  · rw [if_pos (by omega), if_pos (by omega), List.getD_append_right _ _ _ _ (by omega)]
    congr 1
    omega
  · rw [if_neg (by omega), if_neg (by omega), if_neg (by omega)]

/-- The state of the copying loop when the bytes of `r` have been copied. -/
def copiedInto (m : Bytes) (buffer : ℕ) (r : ReadState) : CopyState :=
  { memory := storeBytes m buffer r.copied
    totalRead := r.copied.length
    size := r.size
    sectorOffset := r.sectorOffset }

theorem copySector_copiedInto (r : ReadState) (s : ℕ) :
    copySector d base buffer (copiedInto m buffer r) s =
      copiedInto m buffer (readSector d base r s) := by
  have hchunk : ∀ n, copyIn (storeBytes m buffer r.copied) (buffer + r.copied.length) n
      (window (diskRead d (u32 (base + s))) r.sectorOffset) =
        storeBytes m buffer (r.copied ++ (List.range n).map fun j =>
          diskRead d (u32 (base + s)) (r.sectorOffset + j)) := by
    intro n
    rw [storeBytes_append]
    funext x
    simp only [storeBytes, copyIn, List.length_map, List.length_range]
    split
    · rw [List.getD_eq_getElem _ _ (by simp; omega), List.getElem_map, List.getElem_range]
      rfl
    · rfl
  simp only [copySector, readSector, copiedInto]
  by_cases hsize : 0 < r.size
  · simp only [hsize, ↓reduceIte, hchunk, List.length_append, List.length_map, List.length_range]
    rfl
  · simp only [hsize, ↓reduceIte]

theorem copySectors_copiedInto (d m : Bytes) (buffer base : ℕ) (l : List ℕ) (r : ReadState) :
    l.foldl (copySector d base buffer) (copiedInto m buffer r) =
      copiedInto m buffer (l.foldl (readSector d base) r) := by
  induction l generalizing r with
  | nil => rfl
  | cons s l ih => rw [List.foldl_cons, List.foldl_cons, copySector_copiedInto, ih]

theorem readAbsoluteInto_eq (a offset size : ℕ) :
    fat32ReadAbsoluteInto fs d a offset size m buffer =
      (fat32ReadAbsolute fs d a offset size).map fun bytes =>
        (storeBytes m buffer bytes, bytes.length) := by
  have hbody : ∀ (s : ℕ × ℕ × ReadState) (t : ℕ × ℕ × CopyState),
      t = (s.1, s.2.1, copiedInto m buffer s.2.2) →
      Iteration.Rel (fun s t => t = (s.1, s.2.1, copiedInto m buffer s.2.2))
        (fun bytes q => q = (storeBytes m buffer bytes, bytes.length))
        (readBody fs d s) (copyBody fs d buffer t) := by
    rintro ⟨c, o, r⟩ t rfl
    by_cases hround : 0 < r.size ∧ ¬ offChain c
    · have hsectors := copySectors_copiedInto d m buffer (clusterToSector fs c)
        (List.range' (o / 512) (fs.sectorsPerCluster - o / 512))
        { r with sectorOffset := o % 512 }
      simp only [readBody, copyBody, copiedInto, hround, not_false_eq_true, and_self,
        ↓reduceIte] at hsectors ⊢
      exact .again (by rw [hsectors])
    · simp only [readBody, copyBody, copiedInto, hround, ↓reduceIte]
      exact .leave rfl
  simp only [fat32ReadAbsoluteInto, fat32ReadAbsolute, Option.bind_eq_bind]
  cases run (skipBody fs d) wordCount (a, offset) with
  | none => rfl
  | some skipped =>
    cases skipped with
    | none => exact congrArg some (congrArg (·, 0) storeBytes_nil.symm)
    | some s =>
      have hrel := run_simulation hbody wordCount (s := (s.1, s.2, ⟨size, 0, []⟩))
        (t := (s.1, s.2, copiedInto m buffer ⟨size, 0, []⟩)) rfl
      have hstart : copiedInto m buffer ⟨size, 0, []⟩ = ⟨m, 0, size, 0⟩ := by
        simp only [copiedInto, storeBytes_nil, List.length_nil]
      rw [hstart] at hrel
      simp only [Option.bind_some]
      generalize run (readBody fs d) wordCount (s.1, s.2, ⟨size, 0, []⟩) = x at hrel
      generalize run (copyBody fs d buffer) wordCount (s.1, s.2, ⟨m, 0, size, 0⟩) = y at hrel
      cases hrel with
      | none => rfl
      | some h => rw [h, Option.map_some]

end Copies

section Slices

variable {fs : Fat32} {d m m' : Bytes} {a c j n buffer offset size : ℕ} {l : List ℕ}

theorem map_range_mul {β : Type} (f : ℕ → β) (n k : ℕ) : (List.range (n * k)).map f =
    (List.range n).flatMap fun i => (List.range k).map fun o => f (i * k + o) := by
  induction n with
  | zero => rw [Nat.zero_mul, List.range_zero, List.map_nil, List.flatMap_nil]
  | succ n ih =>
    rw [Nat.succ_mul, List.range_add, List.map_append, ih, List.range_succ, List.flatMap_append,
      List.flatMap_singleton, List.map_map]
    rfl

theorem slice_map_range {β : Type} (f : ℕ → β) (n offset size : ℕ) :
    (((List.range n).map f).drop offset).take size =
      (List.range (min size (n - offset))).map fun i => f (offset + i) := by
  apply List.ext_getElem
  · simp only [List.length_take, List.length_drop, List.length_map, List.length_range]
  · intro i _ _
    simp only [List.getElem_take, List.getElem_drop, List.getElem_map, List.getElem_range]

theorem clusterBytes_eq (hj : l[j]? = some c) : clusterBytes fs d c =
    (List.range (bytesPerCluster fs)).map fun o =>
      streamByte fs d l (j * bytesPerCluster fs + o) := by
  rw [clusterBytes, bytesPerCluster, map_range_mul, ← bytesPerCluster]
  apply List.flatMap_congr
  intro s hs
  apply List.map_congr_left
  intro o ho
  rw [← streamByte_at hj (List.mem_range.mp hs) (List.mem_range.mp ho), Nat.mul_comm s,
    Nat.add_assoc]

theorem chainBytes_eq (fs : Fat32) (d : Bytes) (l : List ℕ) : chainBytes fs d l =
    (List.range (l.length * bytesPerCluster fs)).map (streamByte fs d l) := by
  rw [map_range_mul, chainBytes, List.flatMap_def, List.flatMap_def]
  congr 1
  apply List.ext_getElem
  · rw [List.length_map, List.length_map, List.length_range]
  · intro j hj _
    rw [List.length_map] at hj
    rw [List.getElem_map, List.getElem_map, List.getElem_range]
    exact clusterBytes_eq (List.getElem?_eq_getElem hj)

theorem skip_past (hl : Linked (fat32NextCluster fs d) offChain a l) (hne : l ≠ [])
    (hoff : l.length * bytesPerCluster fs ≤ offset) (hn : l.length < n) :
    run (skipBody fs d) n (a, offset) = some none := by
  induction l generalizing a n offset with
  | nil => exact absurd rfl hne
  | cons c l ih =>
    obtain ⟨k, rfl⟩ : ∃ k, n = k + 1 := ⟨n - 1, by omega⟩
    rw [List.length_cons] at hn
    rw [List.length_cons, Nat.succ_mul] at hoff
    have hmore : bytesPerCluster fs ≤ offset := by omega
    cases hl with
    | cons _ hl =>
      by_cases hend : offChain (fat32NextCluster fs d c)
      · exact run_leave (by simp only [skipBody, hmore, hend, ↓reduceIte]) k
      · have hmem := hl.head_mem hend
        rw [run_again (t := (fat32NextCluster fs d c, offset - bytesPerCluster fs))
          (by simp only [skipBody, hmore, hend, ↓reduceIte])]
        exact ih hl (List.ne_nil_of_mem hmem) (by omega) (by omega)

theorem readAbsolute_slice (hl : Linked (fat32NextCluster fs d) offChain a l) (hne : l ≠ [])
    (offset size : ℕ) : fat32ReadAbsolute fs d a offset size =
      some (((chainBytes fs d l).drop offset).take size) := by
  rw [chainBytes_eq, slice_map_range]
  by_cases hoff : offset < l.length * bytesPerCluster fs
  · exact readAbsolute_stream hl hoff size
  · have hpast := skip_past hl hne (Nat.le_of_not_lt hoff)
      (Nat.lt_of_succ_lt (offChain_length_lt hl))
    rw [Nat.sub_eq_zero_of_le (Nat.le_of_not_lt hoff), Nat.min_zero, List.range_zero,
      List.map_nil, fat32ReadAbsolute, hpast]
    rfl

theorem readAbsoluteInto_slice (hl : Linked (fat32NextCluster fs d) offChain a l) (hne : l ≠ [])
    (offset size : ℕ) (m : Bytes) (buffer : ℕ) :
    fat32ReadAbsoluteInto fs d a offset size m buffer =
      some (storeBytes m buffer (((chainBytes fs d l).drop offset).take size),
        min size ((chainBytes fs d l).length - offset)) := by
  rw [readAbsoluteInto_eq, readAbsolute_slice hl hne, Option.map_some, List.length_take,
    List.length_drop]

/-- For every offset and size a read stores that slice of the chain in front of the buffer and
nothing else, and two reads of adjacent pieces are one read. -/
theorem read_is_slice_of_chain (fs : Fat32) (d : Bytes) (startCluster : ℕ) (l : List ℕ)
    (hl : Linked (fat32NextCluster fs d) offChain startCluster l) (hne : l ≠ []) :
    (∀ (offset : UInt32) (size : ℕ), size < 2 ^ 31 → ∀ memory buffer, ∃ memory',
      fat32ReadAbsoluteInto fs d startCluster offset.toNat size memory buffer =
        some (memory', min size ((chainBytes fs d l).length - offset.toNat)) ∧
      (∀ i < min size ((chainBytes fs d l).length - offset.toNat),
        (chainBytes fs d l)[offset.toNat + i]? = some (memory' (buffer + i))) ∧
      ∀ x, x < buffer ∨ buffer + min size ((chainBytes fs d l).length - offset.toNat) ≤ x →
        memory' x = memory x) ∧
    ∀ offset size₁ size₂, offset + size₁ < 2 ^ 32 → size₁ + size₂ < 2 ^ 31 → ∀ memory buffer,
      ∃ memory₁ read₁ memory₂ read₂,
        fat32ReadAbsoluteInto fs d startCluster offset size₁ memory buffer =
          some (memory₁, read₁) ∧
        fat32ReadAbsoluteInto fs d startCluster (offset + size₁) size₂ memory₁ (buffer + read₁) =
          some (memory₂, read₂) ∧
        fat32ReadAbsoluteInto fs d startCluster offset (size₁ + size₂) memory buffer =
          some (memory₂, read₁ + read₂) := by
  constructor
  · intro offset size _ memory buffer
    refine ⟨_, readAbsoluteInto_slice hl hne _ size memory buffer, ?_⟩
    rw [← List.length_drop, ← List.length_take]
    constructor
    · intro i hi
      rw [storeBytes, copyIn_inside (by omega), Nat.add_sub_cancel_left,
        List.getD_eq_getElem _ _ hi, List.getElem_take, List.getElem_drop,
        List.getElem?_eq_getElem]
    · exact fun x hx => copyIn_outside hx
  · intro offset size₁ size₂ _ _ memory buffer
    refine ⟨_, _, _, _, readAbsoluteInto_slice hl hne offset size₁ memory buffer,
      readAbsoluteInto_slice hl hne (offset + size₁) size₂ _ _, ?_⟩
    rw [readAbsoluteInto_slice hl hne, ← List.length_drop, ← List.length_drop,
      ← List.length_take, ← List.length_take, ← List.length_take, List.take_add, List.drop_drop,
      storeBytes_append, List.length_append]

theorem read_is_slice_of_chain_blankDisk :
    (∀ (offset : UInt32) (size : ℕ), size < 2 ^ 31 → ∀ memory buffer, ∃ memory',
      fat32ReadAbsoluteInto tinyVolume blankDisk 2 offset.toNat size memory buffer =
        some (memory', min size ((chainBytes tinyVolume blankDisk [2]).length - offset.toNat)) ∧
      (∀ i < min size ((chainBytes tinyVolume blankDisk [2]).length - offset.toNat),
        (chainBytes tinyVolume blankDisk [2])[offset.toNat + i]? =
          some (memory' (buffer + i))) ∧
      ∀ x, x < buffer ∨
        buffer + min size ((chainBytes tinyVolume blankDisk [2]).length - offset.toNat) ≤ x →
          memory' x = memory x) ∧
    ∀ offset size₁ size₂, offset + size₁ < 2 ^ 32 → size₁ + size₂ < 2 ^ 31 → ∀ memory buffer,
      ∃ memory₁ read₁ memory₂ read₂,
        fat32ReadAbsoluteInto tinyVolume blankDisk 2 offset size₁ memory buffer =
          some (memory₁, read₁) ∧
        fat32ReadAbsoluteInto tinyVolume blankDisk 2 (offset + size₁) size₂ memory₁
          (buffer + read₁) = some (memory₂, read₂) ∧
        fat32ReadAbsoluteInto tinyVolume blankDisk 2 offset (size₁ + size₂) memory buffer =
          some (memory₂, read₁ + read₂) :=
  read_is_slice_of_chain tinyVolume blankDisk 2 [2]
    (blankDisk_chain.linked_offChain (by decide)) (by decide)

end Slices

end Fat32ReadSlices
