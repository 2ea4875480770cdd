import SojebOS.ByteMemory
import SojebOS.MachineWord

/-!
# The FAT32 volume as an array of sectors

Sector `s` of a disk holds its bytes `512 * s ..< 512 * s + 512`. The functions here
read and write whole sectors, as the driver does; entries of the file allocation table
are 32-bit words of which the low 28 bits are the link.
-/
namespace Fat32Disk

open ByteMemory MachineWord

/-- What `fat32_init` reads from the boot sector. -/
structure Fat32 where
  bytesPerSector : ℕ
  sectorsPerCluster : ℕ
  reservedSectorCount : ℕ
  numFats : ℕ
  fatSize : ℕ
  rootCluster : ℕ
  firstDataSector : ℕ
  deriving DecidableEq, Repr

/-- The buffer that `disk_read` fills; only its first 512 bytes are the sector. -/
def diskRead (d : Bytes) (sector : ℕ) : Bytes := window d (512 * sector)

def diskWrite (d : Bytes) (sector : ℕ) (buffer : Bytes) : Bytes :=
  copyIn d (512 * sector) 512 buffer

def fat32Init (d : Bytes) : Fat32 × ℕ :=
  let boot := diskRead d 0
  let fs : Fat32 :=
    { bytesPerSector := load16 boot 11
      sectorsPerCluster := (boot 13).toNat
      reservedSectorCount := load16 boot 14
      numFats := (boot 16).toNat
      fatSize := load32 boot 36
      rootCluster := load32 boot 44
      firstDataSector := u32 (load16 boot 14 + u32 ((boot 16).toNat * load32 boot 36)) }
  (fs, fs.rootCluster)

def clusterToSector (fs : Fat32) (cluster : ℕ) : ℕ :=
  u32 (u32 (sub32 cluster 2 * fs.sectorsPerCluster) + fs.firstDataSector)

def fat32NextCluster (fs : Fat32) (d : Bytes) (cluster : ℕ) : ℕ :=
  let fatOffset := u32 (cluster * 4)
  let fatSector := u32 (fs.reservedSectorCount + fatOffset / 512)
  let entryOffset := fatOffset % 512
  load32 (diskRead d fatSector) entryOffset &&& 0x0FFFFFFF

/-- Update an entry of the FAT; its high 4 bits stay. -/
def fat32SetNextCluster (fs : Fat32) (d : Bytes) (cluster nextValue : ℕ) : Bytes :=
  let fatOffset := u32 (cluster * 4)
  let fatSector := u32 (fs.reservedSectorCount + fatOffset / 512)
  let entryOffset := fatOffset % 512
  let buffer := diskRead d fatSector
  let current := load32 buffer entryOffset
  let value := (nextValue &&& 0x0FFFFFFF) ||| (current &&& 0xF0000000)
  diskWrite d fatSector (store32 buffer entryOffset value)

/-- The first free cluster from 2 on, or 0x0FFFFFFF. -/
def fat32FindFreeCluster (fs : Fat32) (d : Bytes) : ℕ :=
  let hit := (List.range fs.fatSize).findSome? fun i =>
    let buffer := diskRead d (u32 (fs.reservedSectorCount + i))
    (List.range 128).findSome? fun j =>
      if i = 0 ∧ j < 2 then none
      else if load32 buffer (4 * j) &&& 0x0FFFFFFF = 0 then some (u32 (i * 128 + j))
      else none
  hit.getD 0x0FFFFFFF

/-- The loops over a chain stop at a value that is no data cluster. -/
def offChain (cluster : ℕ) : Prop := ¬ (2 ≤ cluster ∧ cluster < 0x0FFFFFF8)

instance : DecidablePred offChain := fun cluster =>
  inferInstanceAs (Decidable (¬ (2 ≤ cluster ∧ cluster < 0x0FFFFFF8)))

end Fat32Disk
