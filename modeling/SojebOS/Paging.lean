import SojebOS.MachineWord
import SojebOS.PageFrames

/-!
# Physical frames, page tables and user mappings

Frames and page tables are arrays in physical memory, read and written at their physical
addresses. `page_directory` and `first_page_tables` are page aligned arrays of the kernel
image, so they are named by their frames; `frame_bitmap` is kept apart, as 32-bit words.
-/
namespace Paging

open ByteMemory MachineWord PageFrames

abbrev pageSize : ℕ := 4096
abbrev maxPhysicalMemory : ℕ := 64 * 1024 * 1024
abbrev totalFrames : ℕ := maxPhysicalMemory / pageSize

abbrev pagePresent : ℕ := 0x1
abbrev pageRw : ℕ := 0x2
abbrev pageUser : ℕ := 0x4

/-- `reserved_end_page`: the frames below it hold the kernel and its heap. -/
def reservedEndPage (kernelEnd : ℕ) : ℕ := u32 (kernelEnd + pageSize - 1) / pageSize

/-- The frames that `alloc_frame` may hand out. -/
def Pool (kernelEnd f : ℕ) : Prop := reservedEndPage kernelEnd ≤ f ∧ f < totalFrames

instance (kernelEnd f : ℕ) : Decidable (Pool kernelEnd f) :=
  inferInstanceAs (Decidable (reservedEndPage kernelEnd ≤ f ∧ f < totalFrames))

/-- Where the linker put the arrays of the paging code: never in a frame of the pool. -/
structure KernelImage where
  kernelEnd : ℕ
  directoryFrame : ℕ
  tablesFrame : ℕ
  directory_lt : directoryFrame < 2 ^ 20
  tables_lt : tablesFrame + 4 ≤ 2 ^ 20
  arrays_apart : directoryFrame < tablesFrame ∨ tablesFrame + 4 ≤ directoryFrame
  directory_kept : ¬Pool kernelEnd directoryFrame
  tables_kept : ∀ i < 4, ¬Pool kernelEnd (tablesFrame + i)

/-- The address of `page_directory`. -/
def KernelImage.pageDirectory (k : KernelImage) : ℕ := 4096 * k.directoryFrame

/-- The address of `first_page_tables[i]`. -/
def KernelImage.firstPageTables (k : KernelImage) (i : ℕ) : ℕ := 4096 * (k.tablesFrame + i)

structure State where
  memory : Bytes
  frameBitmap : ℕ → ℕ

/-! ## The frame allocator -/

def bitmapSet (s : State) (frameIdx : ℕ) : State :=
  let word := s.frameBitmap (frameIdx / 32) ||| 1 <<< (frameIdx % 32)
  { s with frameBitmap := Function.update s.frameBitmap (frameIdx / 32) word }

def bitmapClear (s : State) (frameIdx : ℕ) : State :=
  let word := s.frameBitmap (frameIdx / 32) &&& (0xFFFFFFFF ^^^ 1 <<< (frameIdx % 32))
  { s with frameBitmap := Function.update s.frameBitmap (frameIdx / 32) word }

def bitmapTest (s : State) (frameIdx : ℕ) : Bool :=
  (s.frameBitmap (frameIdx / 32) &&& 1 <<< (frameIdx % 32)) != 0

/-- The address of the lowest free frame, which becomes used; 0 stands for `NULL`. -/
def allocFrame (s : State) : ℕ × State :=
  match (List.range totalFrames).find? fun i => !bitmapTest s i with
  | some i => (4096 * i, bitmapSet s i)
  | none => (0, s)

def freeFrame (s : State) (physaddr : ℕ) : State := bitmapClear s (physaddr / pageSize)

/-! ## The page directory and the page tables -/

def directoryEntry (k : KernelImage) (s : State) (pdIdx : ℕ) : ℕ :=
  load32 s.memory (k.pageDirectory + 4 * pdIdx)

def setDirectoryEntry (k : KernelImage) (s : State) (pdIdx v : ℕ) : State :=
  { s with memory := store32 s.memory (k.pageDirectory + 4 * pdIdx) v }

/-- `page_table[pt_idx] = v` -/
def setTableEntry (s : State) (pageTable ptIdx v : ℕ) : State :=
  { s with memory := store32 s.memory (pageTable + 4 * ptIdx) v }

def identityTable (k : KernelImage) (s : State) (tableIdx : ℕ) : State :=
  let table := k.firstPageTables tableIdx
  let entry := fun entryIdx => (4096 * (1024 * tableIdx + entryIdx)) ||| (pagePresent ||| pageRw)
  setDirectoryEntry k { s with memory := fillWords s.memory table entry 1024 } tableIdx
    (table ||| (pagePresent ||| pageRw ||| pageUser))

def pagingInit (k : KernelImage) (memory : Bytes) : State :=
  let s : State :=
    { memory := fillWords memory k.pageDirectory (fun _ => 0x00000002) 1024
      frameBitmap := fun _ => 0 }
  let s := (List.range (reservedEndPage k.kernelEnd)).foldl bitmapSet s
  (List.range 4).foldl (identityTable k) s

def attachTable (k : KernelImage) (s : State) (pdIdx pageTable : ℕ) : State :=
  setDirectoryEntry k { s with memory := fillWords s.memory pageTable (fun _ => 0) 1024 } pdIdx
    (pageTable ||| (pagePresent ||| pageRw ||| pageUser))

def mapPage (k : KernelImage) (s : State) (physaddr virtualaddr flags : ℕ) : State :=
  let pdIdx := virtualaddr >>> 22
  let ptIdx := (virtualaddr >>> 12) &&& 0x3FF
  let entry := (physaddr &&& 0xFFFFF000) ||| (flags &&& 0xFFF)
  if directoryEntry k s pdIdx &&& pagePresent ≠ 0 then
    setTableEntry s (directoryEntry k s pdIdx &&& 0xFFFFF000) ptIdx entry
  else
    let newTable := allocFrame s
    -- out of memory for page tables: the page stays unmapped
    if newTable.1 = 0 then newTable.2
    else setTableEntry (attachTable k newTable.2 pdIdx newTable.1) newTable.1 ptIdx entry

/-- One round of the loop of `paging_map_user_memory`. -/
def mapUserPage (k : KernelImage) (s : State) (vaddr : ℕ) : State :=
  let frame := allocFrame s
  if frame.1 = 0 then frame.2
  else
    mapPage k { frame.2 with memory := copyIn frame.2.memory frame.1 pageSize (fun _ => 0) }
      frame.1 vaddr (pagePresent ||| pageRw ||| pageUser)

/-- The addresses that the loop of `paging_map_user_memory` visits. -/
def userPages (virtualAddress size : ℕ) : List ℕ :=
  let startVaddr := virtualAddress &&& 0xFFFFF000
  let endVaddr := u32 (virtualAddress + size + pageSize - 1) &&& 0xFFFFF000
  (List.range ((endVaddr - startVaddr) / pageSize)).map (startVaddr + 4096 * ·)

def pagingMapUserMemory (k : KernelImage) (s : State) (virtualAddress size : ℕ) : State :=
  if size = 0 then s else (userPages virtualAddress size).foldl (mapUserPage k) s

/-! ## The address translation of the processor -/

/-- The entry that the two-level walk finds for a page, 0 where the table is missing. -/
def walk (k : KernelImage) (s : State) (page : ℕ) : ℕ :=
  if directoryEntry k s (page / 1024) &&& pagePresent ≠ 0 then
    load32 s.memory ((directoryEntry k s (page / 1024) &&& 0xFFFFF000) + 4 * (page % 1024))
  else 0

/-- The physical address of a virtual one; `none` is a page fault. -/
def translate (k : KernelImage) (s : State) (a : ℕ) : Option ℕ :=
  if walk k s (a / pageSize) &&& pagePresent ≠ 0 then
    some ((walk k s (a / pageSize) &&& 0xFFFFF000) + a % pageSize)
  else none

/-- Ring 3 may use a page when both entries of its walk say so. -/
def UserAccessible (k : KernelImage) (s : State) (page : ℕ) : Prop :=
  directoryEntry k s (page / 1024) &&& pageUser ≠ 0 ∧
    walk k s page &&& pagePresent ≠ 0 ∧ walk k s page &&& pageUser ≠ 0

/-- The states that the system can be in: `paging_init` over any memory, any calls of
`paging_map_user_memory`, and in between any stores of ring 3. -/
inductive Reachable (k : KernelImage) : State → Prop where
  | init (memory : Bytes) : Reachable k (pagingInit k memory)
  | call {s} (virtualAddress size : UInt32) (h : Reachable k s) :
      Reachable k (pagingMapUserMemory k s virtualAddress.toNat size.toNat)
  | store {s} (a : UInt32) (p : ℕ) (b : UInt8) (h : Reachable k s)
      (hu : UserAccessible k s (a.toNat / pageSize)) (ht : translate k s a.toNat = some p) :
      Reachable k { s with memory := store8 s.memory p b }

end Paging
