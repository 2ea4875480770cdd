import SojebOS.ElfHeaders
import SojebOS.Fat32ReadSlices

/-!
# The file behind an open node

The loader sees a file through `vfs_read`: the slices of its cluster chain, cut at the size of
the node where the sum of offset and request does not wrap.
-/
namespace NodeFiles

open ByteMemory MachineWord LinkedChain
open Fat32Disk Fat32Directory Fat32Files Fat32RoundTrip Fat32ReadSlices ElfLoader ElfHeaders

/-- What `vfs_read` delivers from a node. -/
def nodeFile (fs : Fat32) (d : Bytes) (node : VfsNode) : OpenFile :=
  fun offset size => (vfsRead fs d node offset size).getD []

/-- A node that the driver filled in, with the clusters of its file: the chain ends, and a file
with bytes has clusters. -/
structure NodeOf (fs : Fat32) (d : Bytes) (node : VfsNode) (l : List ℕ) : Prop where
  read : node.read = some .fat32VfsRead
  chain : Linked (fat32NextCluster fs d) offChain node.inode l
  filled : l = [] → node.size = 0

/-- The size of a request after the check of `fat32_vfs_read`. -/
def cutSize (nodeSize offset size : ℕ) : ℕ :=
  if nodeSize < u32 (offset + size) then nodeSize - offset else size

/-- The number of bytes that a node with `total` bytes of clusters delivers. -/
def deliveredLength (nodeSize total offset size : ℕ) : ℕ :=
  if nodeSize ≤ offset then 0 else min (cutSize nodeSize offset size) (total - offset)

variable {fs : Fat32} {d : Bytes} {node : VfsNode} {l : List ℕ}

theorem vfsRead_slice (h : NodeOf fs d node l) (offset size : ℕ) :
    vfsRead fs d node offset size = some (if node.size ≤ offset then [] else
      ((chainBytes fs d l).drop offset).take (cutSize node.size offset size)) := by
  simp only [vfsRead, h.read, fat32VfsRead]
  by_cases hoff : node.size ≤ offset
  · rw [if_pos hoff, if_pos hoff]
  · have hne : l ≠ [] := fun e => hoff (by rw [h.filled e]; exact Nat.zero_le offset)
    rw [if_neg hoff, if_neg hoff]
    exact readAbsolute_slice h.chain hne offset _

theorem nodeFile_slice (h : NodeOf fs d node l) (offset size : ℕ) :
    nodeFile fs d node offset size = if node.size ≤ offset then [] else
      ((chainBytes fs d l).drop offset).take (cutSize node.size offset size) := by
  rw [nodeFile, vfsRead_slice h, Option.getD_some]

theorem chainBytes_length (fs : Fat32) (d : Bytes) (l : List ℕ) :
    (chainBytes fs d l).length = l.length * bytesPerCluster fs := by
  rw [chainBytes_eq, List.length_map, List.length_range]

theorem nodeFile_length (h : NodeOf fs d node l) (offset size : ℕ) :
    (nodeFile fs d node offset size).length =
      deliveredLength node.size (l.length * bytesPerCluster fs) offset size := by
  rw [nodeFile_slice h, deliveredLength]
  split
  · rfl
  · rw [List.length_take, List.length_drop, chainBytes_length]

/-- A file with clusters for all of its bytes is served as its content where no sum wraps. -/
theorem nodeFile_serves (h : NodeOf fs d node l)
    (hfit : node.size ≤ l.length * bytesPerCluster fs) :
    Serves (nodeFile fs d node) node.size (streamByte fs d l) := by
  intro offset n hn
  rw [nodeFile_slice h]
  by_cases hoff : node.size ≤ offset
  · rw [if_pos hoff, Nat.sub_eq_zero_of_le hoff, Nat.min_zero]
    rfl
  · have hcut : min (cutSize node.size offset n) (l.length * bytesPerCluster fs - offset) =
        min n (node.size - offset) := by
      rw [cutSize, u32_of_lt hn]
      split <;> omega
    rw [if_neg hoff, chainBytes_eq, slice_map_range, hcut]

end NodeFiles
