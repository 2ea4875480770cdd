import SojebOS.Fat32Directory

/-!
# Files: writing, deleting and reading

The write allocates and fills cluster after cluster, linking each to the one before,
and then looks for a slot of the current directory. The delete frees the chain of the
first matching entry. The read skips clusters up to the offset and copies from there.
-/
namespace Fat32Files

open ByteMemory MachineWord WhileLoop LinkedChain Fat32Disk Fat32Directory

def bytesPerCluster (fs : Fat32) : ℕ := fs.sectorsPerCluster * 512

def clustersNeeded (fs : Fat32) (size : ℕ) : ℕ :=
  sub32 (u32 (size + bytesPerCluster fs)) 1 / bytesPerCluster fs

/-- Write sector `s` of the `i`-th cluster of the data; the last sector is padded. -/
def writeSector (fs : Fat32) (data : Bytes) (size i startSector : ℕ) (d : Bytes) (s : ℕ) :
    Bytes :=
  let dataOffset := u32 (u32 (i * bytesPerCluster fs) + s * 512)
  if dataOffset < size then
    let chunkSize := size - dataOffset
    if 512 ≤ chunkSize then
      diskWrite d (u32 (startSector + s)) (window data dataOffset)
    else
      diskWrite d (u32 (startSector + s))
        fun j => if j < chunkSize then data (dataOffset + j) else 0
  else d

def writeCluster (fs : Fat32) (data : Bytes) (size i cluster : ℕ) (d : Bytes) : Bytes :=
  (List.range fs.sectorsPerCluster).foldl
    (writeSector fs data size i (clusterToSector fs cluster)) d

/-- The allocation loop from its `i`-th round, with `rounds` to go. It returns early,
without a first cluster, when no cluster is free. -/
def allocateClusters (fs : Fat32) (data : Bytes) (size : ℕ) :
    (rounds i : ℕ) → (d : Bytes) → (prevCluster firstCluster : ℕ) → Bytes × Option ℕ
  | 0, _, d, _, firstCluster => (d, some firstCluster)
  | rounds + 1, i, d, prevCluster, firstCluster =>
    let currentCluster := fat32FindFreeCluster fs d
    if currentCluster = 0x0FFFFFFF then (d, none)
    else
      let first := if i = 0 then currentCluster else firstCluster
      let d := if i = 0 then d else fat32SetNextCluster fs d prevCluster currentCluster
      let d := fat32SetNextCluster fs d currentCluster 0x0FFFFFFF
      let d := writeCluster fs data size i currentCluster d
      allocateClusters fs data size rounds (i + 1) d currentCluster first

inductive WriteExit where
  | noFreeCluster
  | stored
  | noFreeSlot
  deriving DecidableEq, Repr

/-- After the loop: return at once, or record the first cluster in a directory slot. -/
def recordFile (fs : Fat32) (currentDirCluster : ℕ) (filename : List UInt8) (size : ℕ) :
    Bytes × Option ℕ → Option (Bytes × WriteExit)
  | (d, none) => some (d, .noFreeCluster)
  | (d, some firstCluster) =>
    (walkDirectory fs d currentDirCluster (freeSlotVisit d)).map fun hit =>
      match hit with
      | some slot =>
        (storeEntry d slot (formatFilename filename) attrArchive firstCluster size, .stored)
      | none => (d, .noFreeSlot)

def fat32WriteFile (fs : Fat32) (d : Bytes) (currentDirCluster : ℕ) (filename : List UInt8)
    (data : Bytes) (size : ℕ) : Option (Bytes × WriteExit) :=
  recordFile fs currentDirCluster filename size
    (allocateClusters fs data size (clustersNeeded fs size) 0 d 0 0)

/-- Free the chain from a cluster; the state is (disk, cluster_to_free). -/
def freeBody (fs : Fat32) (s : Bytes × ℕ) : Iteration (Bytes × ℕ) Bytes :=
  if offChain s.2 then .leave s.1
  else .again (fat32SetNextCluster fs s.1 s.2 0, fat32NextCluster fs s.1 s.2)

def freeChain (fs : Fat32) (d : Bytes) (cluster : ℕ) : Option Bytes :=
  run (freeBody fs) wordCount (d, cluster)

/-- The slot that a deletion takes, if the walk does not meet the end mark before. The
names are compared byte by byte and then the attribute is looked at. -/
def deleteVisit (d : Bytes) (searchName : List UInt8) (sector i : ℕ) :
    Option (Option (ℕ × ℕ)) :=
  let buffer := diskRead d sector
  let e := readEntry buffer (32 * i)
  if buffer (32 * i) = 0 then some none
  else if buffer (32 * i) = deletedMark then none
  else if e.name = searchName ∧ e.attr ≠ attrLongName then some (some (sector, i))
  else none

/-- Write the sector read before back to the disk, with the slot marked deleted. -/
def markDeleted (d : Bytes) (buffer : Bytes) (slot : ℕ × ℕ) : Bytes :=
  diskWrite d slot.1 (store8 buffer (32 * slot.2) deletedMark)

def fat32DeleteFile (fs : Fat32) (d : Bytes) (currentDirCluster : ℕ)
    (filename : List UInt8) : Option Bytes := do
  let hit ← walkDirectory fs d currentDirCluster (deleteVisit d (formatFilename filename))
  match hit.join with
  | none => return d
  | some slot =>
    let buffer := diskRead d slot.1
    let d₁ ← freeChain fs d (readEntry buffer (32 * slot.2)).firstCluster
    return markDeleted d₁ buffer slot

/-- Skip whole clusters before the offset; the state is (cluster, offset). Leaving with
`none` is the return of 0 for an offset behind the chain. -/
def skipBody (fs : Fat32) (d : Bytes) (s : ℕ × ℕ) : Iteration (ℕ × ℕ) (Option (ℕ × ℕ)) :=
  if bytesPerCluster fs ≤ s.2 then
    let cluster := fat32NextCluster fs d s.1
    if offChain cluster then .leave none else .again (cluster, s.2 - bytesPerCluster fs)
  else .leave (some s)

/-- What is left to read, the offset in the next sector, and the bytes copied so far. -/
structure ReadState where
  size : ℕ
  sectorOffset : ℕ
  copied : List UInt8

/-- Copy from sector `s` of a cluster, unless everything has been read. -/
def readSector (d : Bytes) (sectorBase : ℕ) (r : ReadState) (s : ℕ) : ReadState :=
  if 0 < r.size then
    let buffer := diskRead d (u32 (sectorBase + s))
    let chunk := if r.size < 512 - r.sectorOffset then r.size else 512 - r.sectorOffset
    { size := r.size - chunk
      sectorOffset := 0
      copied := r.copied ++ (List.range chunk).map fun j => buffer (r.sectorOffset + j) }
  else r

/-- One cluster of the read loop; the state is (cluster, offset, what is left). -/
def readBody (fs : Fat32) (d : Bytes) (s : ℕ × ℕ × ReadState) :
    Iteration (ℕ × ℕ × ReadState) (List UInt8) :=
  let (cluster, offset, r) := s
  if 0 < r.size ∧ ¬ offChain cluster then
    let sectorIndex := offset / 512
    let r := (List.range' sectorIndex (fs.sectorsPerCluster - sectorIndex)).foldl
      (readSector d (clusterToSector fs cluster)) { r with sectorOffset := offset % 512 }
    .again (fat32NextCluster fs d cluster, 0, r)
  else .leave r.copied

/-- The bytes written to the start of the buffer; their number is the return value. -/
def fat32ReadAbsolute (fs : Fat32) (d : Bytes) (startCluster offset size : ℕ) :
    Option (List UInt8) := do
  let skipped ← run (skipBody fs d) wordCount (startCluster, offset)
  match skipped with
  | none => return []
  | some (cluster, offset) =>
    run (readBody fs d) wordCount (cluster, offset, { size, sectorOffset := 0, copied := [] })

inductive VfsHook where
  | fat32VfsRead
  deriving DecidableEq, Repr

/-- The fields of a VFS node that opening and reading a file use. -/
structure VfsNode where
  name : List UInt8
  flags : ℕ
  size : ℕ
  inode : ℕ
  read : Option VfsHook
  deriving DecidableEq, Repr

def vfsFile : ℕ := 0x01
def vfsDirectory : ℕ := 0x02

def fat32VfsRead (fs : Fat32) (d : Bytes) (node : VfsNode) (offset size : ℕ) :
    Option (List UInt8) :=
  if node.size ≤ offset then some []
  else
    let size := if node.size < u32 (offset + size) then node.size - offset else size
    fat32ReadAbsolute fs d node.inode offset size

/-- `vfs_read` on an open node; it calls the hook the driver attached. -/
def vfsRead (fs : Fat32) (d : Bytes) (node : VfsNode) (offset size : ℕ) :
    Option (List UInt8) :=
  match node.read with
  | some .fat32VfsRead => fat32VfsRead fs d node offset size
  | none => some []

/-- The first `n` bytes of the destination: the string, then zeros. -/
def strncpy (src : List UInt8) (n : ℕ) : List UInt8 :=
  let s := (src.takeWhile (· ≠ 0)).take n
  s ++ List.replicate (n - s.length) 0

/-- The node that `fat32_file_lookup` fills in, or `none` for its return of -1. -/
def fat32FileLookup (fs : Fat32) (d : Bytes) (currentDirCluster : ℕ)
    (filename : List UInt8) : Option (Option VfsNode) :=
  (fat32FindFile fs d currentDirCluster filename).map fun found =>
    found.map fun entry =>
      { name := strncpy filename 255
        size := entry.fileSize
        inode := entry.firstCluster
        flags := if entry.isDirectory then vfsDirectory else vfsFile
        read := some .fat32VfsRead }

end Fat32Files
