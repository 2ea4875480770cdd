import SojebOS.Paging

/-!
# The paging code behind its own page tables

With paging on, the kernel reads and writes through the page tables like everything else. A
frame is cleared and a page table written at the virtual address that equals the frame's
physical one, and `page_directory` at its address in the kernel image, so a round of the loop
can come to a page fault, or to another frame than it means. `frame_bitmap` is kept apart.
-/
namespace TranslatedPaging

open ByteMemory MachineWord
open Paging (KernelImage State translate pageSize pagePresent pageRw pageUser allocFrame userPages)

/-! ## Accesses; `none` is a page fault -/

def loadWord (k : KernelImage) (s : State) (a : ℕ) : Option ℕ :=
  (translate k s a).map (load32 s.memory)

/-- An aligned word, which lies in one page. -/
def storeWord (k : KernelImage) (s : State) (a v : ℕ) : Option State :=
  (translate k s a).map fun p => { s with memory := store32 s.memory p v }

def storeVirtual (k : KernelImage) (s : State) (a : ℕ) (b : UInt8) : Option State :=
  (translate k s a).map fun p => { s with memory := store8 s.memory p b }

/-- The bytes `src 0 ..< src n` stored from virtual address `a` on. -/
def writeVirtual (k : KernelImage) (s : State) (a : ℕ) (src : Bytes) : ℕ → Option State
  | 0 => some s
  | n + 1 => (writeVirtual k s a src n).bind fun s => storeVirtual k s (u32 (a + n)) (src n)

/-! ## The paging code -/

/-- `page_table[i] = 0` for the first `n` entries. -/
def clearTable (k : KernelImage) (s : State) (pageTable : ℕ) : ℕ → Option State
  | 0 => some s
  | n + 1 => (clearTable k s pageTable n).bind fun s => storeWord k s (pageTable + 4 * n) 0

def mapPage (k : KernelImage) (s : State) (physaddr virtualaddr flags : ℕ) : Option State := do
  let pdIdx := virtualaddr >>> 22
  let ptIdx := (virtualaddr >>> 12) &&& 0x3FF
  let entry := (physaddr &&& 0xFFFFF000) ||| (flags &&& 0xFFF)
  let slot ← loadWord k s (k.pageDirectory + 4 * pdIdx)
  if slot &&& pagePresent ≠ 0 then storeWord k s ((slot &&& 0xFFFFF000) + 4 * ptIdx) entry
  else
    let newTable := allocFrame s
    -- out of memory for page tables: the page stays unmapped
    if newTable.1 = 0 then some newTable.2
    else
      let s ← clearTable k newTable.2 newTable.1 1024
      let s ← storeWord k s (k.pageDirectory + 4 * pdIdx)
        (newTable.1 ||| (pagePresent ||| pageRw ||| pageUser))
      storeWord k s (newTable.1 + 4 * ptIdx) entry

/-- One round of the loop of `paging_map_user_memory`. -/
def mapUserPage (k : KernelImage) (s : State) (vaddr : ℕ) : Option State :=
  let frame := allocFrame s
  if frame.1 = 0 then some frame.2
  else
    (writeVirtual k frame.2 frame.1 (fun _ => 0) pageSize).bind fun s =>
      mapPage k s frame.1 vaddr (pagePresent ||| pageRw ||| pageUser)

def pagingMapUserMemory (k : KernelImage) (s : State) (virtualAddress size : ℕ) : Option State :=
  if size = 0 then some s else (userPages virtualAddress size).foldlM (mapUserPage k) s

end TranslatedPaging
