import SojebOS.ElfImage
import SojebOS.NodeFiles
import SojebOS.UserRanges

/-!
# Where the loader stores

A segment is mapped by its size in memory and filled by its size in the file, and nothing
compares the two. The stores of an iteration stay on the pages that it mapped exactly when
the bytes that `vfs_read` delivers end on the segment's last page.
-/
namespace ElfStores

open ByteMemory MachineWord LinkedChain Paging PagingWalks PagingRefinement PagingInit
open FrameSupply UserMemory UserRanges KernelMapping UserIsolation DirectAccess DirectRounds
open ElfLoader ElfHeaders ElfImage NodeFiles
open Fat32Disk Fat32Directory Fat32Files Fat32Layout Fat32Volume Fat32RoundTrip
open TranslatedPaging (storeVirtual writeVirtual)

/-- The stores of an iteration through `ph.p_vaddr`: the `memset`, then the `vfs_read`. -/
def segmentStores (file : OpenFile) (ph : ProgramHeader) : List (ℕ × UInt8) :=
  let bytes := if 0 < ph.pFilesz then file ph.pOffset ph.pFilesz else []
  ((List.range ph.pMemsz).map fun i => (u32 (ph.pVaddr + i), 0)) ++
    (List.range bytes.length).map fun i => (u32 (ph.pVaddr + i), bytes.getD i 0)

/-- The call that led from `s` to `s'` gave a frame that was free to the page. -/
def MappedByCall (k : KernelImage) (s s' : State) (page : ℕ) : Prop :=
  ∃ f < totalFrames, bitmapTest s f = false ∧
    walk k s' page = 4096 * f ||| (pagePresent ||| pageRw ||| pageUser)

/-- The iteration that starts in `s` stores on pages of its own call only. -/
def StoresInside (k : KernelImage) (file : OpenFile) (s : State) (ph : ProgramHeader) : Prop :=
  ∀ s', TranslatedPaging.pagingMapUserMemory k s ph.pVaddr ph.pMemsz = some s' →
    ∀ st ∈ segmentStores file ph, MappedByCall k s s' (st.1 / pageSize)

/-- Every iteration that the loop comes to stores on pages of its own call only. -/
def StaysInside (k : KernelImage) (file : OpenFile) : State → List ProgramHeader → Prop
  | _, [] => True
  | s, ph :: segs => StoresInside k file s ph ∧
      ∀ s', loadProgramHeader k file s ph = some s' → StaysInside k file s' segs

section Stores

variable {k : KernelImage} {s : State} {file : OpenFile} {ph : ProgramHeader} {page : ℕ}
variable {ws : List ℕ} {segs : List ProgramHeader}

end Stores

/-- An executable with one segment, of four bytes in the file and none in memory, at 1 MB. -/
def overrunBytes : List UInt8 :=
  [0x7F, 0x45, 0x4C, 0x46] ++ List.replicate 12 0 ++ [2] ++ List.replicate 11 0 ++ [64] ++
    List.replicate 17 0 ++ [1] ++ List.replicate 17 0 ++
    [1, 0, 0, 0, 0, 0, 0, 0, 0, 0, 0x10, 0, 0, 0, 0, 0, 4] ++ List.replicate 15 0

/-- The executable takes the cluster behind the root, under the name `A`. -/
def overrunDisk : Bytes :=
  fillEntry (fun x => if 520 ≤ x ∧ x < 528 then 0xFF else overrunBytes.getD (x - 1536) 0) 1024
    (formatFilename [0x41]) attrArchive 3 96

def overrunNode : VfsNode :=
  { name := strncpy [0x41] 255, flags := vfsFile, size := 96, inode := 3,
    read := some .fat32VfsRead }

theorem overrun_lookup :
    fat32FileLookup tinyVolume overrunDisk 2 [0x41] = some (some overrunNode) := by
  decide +kernel

theorem overrun_nodeOf : NodeOf tinyVolume overrunDisk overrunNode [3] where
  read := rfl
  chain := .cons (by decide) (.nil (by decide +kernel))
  filled := fun e => absurd e (by decide)

end ElfStores
