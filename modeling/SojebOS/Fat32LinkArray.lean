import SojebOS.Fat32Layout
import SojebOS.Fat32Volume

/-!
# The FAT as an array of links

`fat32_set_next_cluster` reads a sector, changes one word of it and writes the sector back. To
`fat32_next_cluster` it is the update of one cell of an array, for any two clusters below 2^28,
whatever is on the disk.
-/
namespace Fat32LinkArray

open ByteMemory MachineWord Fat32Disk Fat32Layout Fat32Volume

/-- What the two functions compute on the way fits in 32 bits, the sector number in the 28 bits
that the drive takes, and the entry in its sector. -/
structure NoWrap (fs : Fat32) (d : Bytes) (cluster nextValue : ℕ) : Prop where
  offset : cluster * 4 < 2 ^ 32
  sector : fs.reservedSectorCount + cluster * 4 / 512 < 2 ^ 28
  entry : cluster * 4 % 512 + 4 ≤ 512
  value : ((nextValue &&& 0x0FFFFFFF) ||| (load32 d (cellAddr fs cluster) &&& 0xF0000000)) < 2 ^ 32

structure Updated (fs : Fat32) (d d' : Bytes) (cluster nextValue : ℕ) : Prop where
  link : ∀ c < 2 ^ 28, fat32NextCluster fs d' c =
    if c = cluster then nextValue &&& 0x0FFFFFFF else fat32NextCluster fs d c
  high : load32 d' (cellAddr fs cluster) / 2 ^ 28 = load32 d (cellAddr fs cluster) / 2 ^ 28
  other : ∀ x, x < cellAddr fs cluster ∨ cellAddr fs cluster + 4 ≤ x → d' x = d x

section Cells

variable {fs : Fat32} {d : Bytes} {c c' v : ℕ}

theorem linkAddr_of_reserved (hr : fs.reservedSectorCount < 2 ^ 16) (hc : c < 2 ^ 28) :
    linkAddr fs c = cellAddr fs c := by
  rw [linkAddr, cellAddr, u32_of_lt (by omega)]
  omega

theorem noWrap (hr : fs.reservedSectorCount < 2 ^ 16) (hc : c < 2 ^ 28) (d : Bytes) (v : ℕ) :
    NoWrap fs d c v := by
  constructor
  · omega
  · omega
  · omega
  · exact Nat.or_lt_two_pow (Nat.and_lt_two_pow v (by norm_num))
      (Nat.and_lt_two_pow _ (by norm_num))

theorem nextCluster_updated (hc : c < 2 ^ 28) (hc' : c' < 2 ^ 28) :
    fat32NextCluster fs (fat32SetNextCluster fs d c v) c' =
      if c' = c then v &&& 0x0FFFFFFF else fat32NextCluster fs d c' := by
  split_ifs with heq
  · have hl := load32_lt d (linkAddr fs c)
    rw [heq, nextCluster_linkAddr (by omega), setNextCluster_linkAddr (by omega),
      load32_store32 (by omega), show (0x0FFFFFFF : ℕ) = 2 ^ 28 - 1 from rfl, and_low_mask]
    omega
  · exact nextCluster_setNextCluster_other (by omega) (by omega) heq

end Cells

/-- The FAT is an array of 28-bit cells, each in the low bits of its own word. -/
theorem fat_is_array (fs : Fat32) (hr : fs.reservedSectorCount < 2 ^ 16) (d : Bytes)
    (cluster nextValue : ℕ) (hc : cluster < 2 ^ 28) :
    Updated fs d (fat32SetNextCluster fs d cluster nextValue) cluster nextValue ∧
      NoWrap fs d cluster nextValue := by
  have hstore : fat32SetNextCluster fs d cluster nextValue = store32 d (linkAddr fs cluster)
      (load32 d (linkAddr fs cluster) / 2 ^ 28 * 2 ^ 28 + nextValue % 2 ^ 28) :=
    setNextCluster_linkAddr (by omega)
  rw [linkAddr_of_reserved hr hc] at hstore
  have hl := load32_lt d (cellAddr fs cluster)
  refine ⟨⟨fun c hc' => nextCluster_updated hc hc', ?_, fun x hx => ?_⟩, noWrap hr hc d nextValue⟩
  · rw [hstore, load32_store32 (by omega)]
    omega
  · rw [hstore]
    exact store32_outside hx

/-- Cluster 3 of an empty volume is linked to cluster 4. -/
theorem fat_is_array_tinyVolume :
    Updated tinyVolume (fun _ => 0) (fat32SetNextCluster tinyVolume (fun _ => 0) 3 4) 3 4 ∧
      NoWrap tinyVolume (fun _ => 0) 3 4 :=
  fat_is_array tinyVolume (by decide) (fun _ => 0) 3 4 (by norm_num)

end Fat32LinkArray
