import SojebOS.TranslatedPaging

/-!
# Loading an executable

`exec_elf` reads the header through the packed `elf_header_t`, then one program header
after another, and copies every `PT_LOAD` segment to its virtual address. The bytes of a
structure that `vfs_read` does not fill are what the stack held.
-/
namespace ElfLoader

open ByteMemory MachineWord Paging
open TranslatedPaging (storeVirtual writeVirtual)

abbrev elfMagic : ℕ := 0x464C457F
abbrev etExec : ℕ := 2
abbrev ptLoad : ℕ := 1

structure ElfHeader where
  eIdent : Bytes
  eType : ℕ
  eMachine : ℕ
  eVersion : ℕ
  eEntry : ℕ
  ePhoff : ℕ
  eShoff : ℕ
  eFlags : ℕ
  eEhsize : ℕ
  ePhentsize : ℕ
  ePhnum : ℕ
  eShentsize : ℕ
  eShnum : ℕ
  eShstrndx : ℕ

/-- The size of `elf_header_t`, whose `e_ehsize` has 32 bits. -/
abbrev elfHeaderSize : ℕ := 54

def elfHeader (b : Bytes) : ElfHeader where
  eIdent := b
  eType := load16 b 16
  eMachine := load16 b 18
  eVersion := load32 b 20
  eEntry := load32 b 24
  ePhoff := load32 b 28
  eShoff := load32 b 32
  eFlags := load32 b 36
  eEhsize := load32 b 40
  ePhentsize := load16 b 44
  ePhnum := load16 b 46
  eShentsize := load16 b 48
  eShnum := load16 b 50
  eShstrndx := load16 b 52

structure ProgramHeader where
  pType : ℕ
  pOffset : ℕ
  pVaddr : ℕ
  pPaddr : ℕ
  pFilesz : ℕ
  pMemsz : ℕ
  pFlags : ℕ
  pAlign : ℕ
  deriving DecidableEq, Repr

abbrev programHeaderSize : ℕ := 32

def programHeader (b : Bytes) : ProgramHeader where
  pType := load32 b 0
  pOffset := load32 b 4
  pVaddr := load32 b 8
  pPaddr := load32 b 12
  pFilesz := load32 b 16
  pMemsz := load32 b 20
  pFlags := load32 b 24
  pAlign := load32 b 28

/-- An open file: the bytes that `vfs_read(file, offset, size, _)` delivers. -/
abbrev OpenFile := ℕ → ℕ → List UInt8

/-- A local structure on the stack after `vfs_read` has written its bytes to the front. -/
def readInto (stack : Bytes) (bs : List UInt8) : Bytes :=
  copyIn stack 0 bs.length fun i => bs.getD i 0

def programHeaderOffset (header : ElfHeader) (i : ℕ) : ℕ :=
  u32 (header.ePhoff + i * header.ePhentsize)

def readProgramHeader (file : OpenFile) (stack : ℕ → Bytes) (header : ElfHeader) (i : ℕ) :
    ProgramHeader :=
  programHeader (readInto (stack i) (file (programHeaderOffset header i) programHeaderSize))

/-- `vfs_read` into a buffer of the current address space. -/
def readVirtual (k : KernelImage) (s : State) (file : OpenFile) (offset size buffer : ℕ) :
    Option State :=
  writeVirtual k s buffer (fun i => (file offset size).getD i 0) (file offset size).length

def loadProgramHeader (k : KernelImage) (file : OpenFile) (s : State) (ph : ProgramHeader) :
    Option State :=
  if ph.pType = ptLoad then do
    let s ← TranslatedPaging.pagingMapUserMemory k s ph.pVaddr ph.pMemsz
    let s ← writeVirtual k s ph.pVaddr (fun _ => 0) ph.pMemsz
    if 0 < ph.pFilesz then readVirtual k s file ph.pOffset ph.pFilesz ph.pVaddr else some s
  else some s

def programHeaderLoop (k : KernelImage) (file : OpenFile) (stack : ℕ → Bytes) (header : ElfHeader)
    (s : State) : Option State :=
  (List.range header.ePhnum).foldlM
    (fun s i => loadProgramHeader k file s (readProgramHeader file stack header i)) s

abbrev userStackTop : ℕ := 0xBFFFF000
abbrev stackSize : ℕ := 4096 * 4
abbrev userStackBottom : ℕ := userStackTop - stackSize

/-- The pages of the user stack, cleared. -/
def mapUserStack (k : KernelImage) (s : State) : Option State := do
  let s ← TranslatedPaging.pagingMapUserMemory k s userStackBottom stackSize
  writeVirtual k s userStackBottom (fun _ => 0) stackSize

/-- How `exec_elf` ends: with a status, in a page fault, or in ring 3. -/
inductive ExecResult where
  | status (code : ℤ)
  | fault
  | entered (s : State) (entry stackTop : ℕ)

def execElf (k : KernelImage) (s : State) (vfsOpen : Option OpenFile) (headerStack : Bytes)
    (stack : ℕ → Bytes) : ExecResult :=
  match vfsOpen with
  | none => .status (-1)
  | some file =>
    let header := elfHeader (readInto headerStack (file 0 elfHeaderSize))
    if load32 header.eIdent 0 ≠ elfMagic then .status (-2)
    else if header.eType ≠ etExec then .status (-3)
    else
      match (programHeaderLoop k file stack header s).bind (mapUserStack k) with
      | none => .fault
      | some s => .entered s header.eEntry userStackTop

/-! ## What the loop visits and loads -/

/-- The file offsets of the program headers, in the order of the loop. -/
def visitedOffsets (header : ElfHeader) : List ℕ :=
  (List.range header.ePhnum).map (programHeaderOffset header)

def segments (file : OpenFile) (stack : ℕ → Bytes) (header : ElfHeader) : List ProgramHeader :=
  ((List.range header.ePhnum).map (readProgramHeader file stack header)).filter
    (·.pType = ptLoad)

theorem programHeaderLoop_eq (k : KernelImage) (file : OpenFile) (stack : ℕ → Bytes)
    (header : ElfHeader) (s : State) :
    programHeaderLoop k file stack header s =
      (segments file stack header).foldlM (loadProgramHeader k file) s := by
  unfold programHeaderLoop segments
  induction List.range header.ePhnum generalizing s with
  | nil => rfl
  | cons i is ih =>
    by_cases h : (readProgramHeader file stack header i).pType = ptLoad
    · rw [List.foldlM_cons, List.map_cons, List.filter_cons_of_pos (by simpa using h),
        List.foldlM_cons]
      exact bind_congr fun t => ih t
    · rw [List.foldlM_cons, List.map_cons, List.filter_cons_of_neg (by simpa using h)]
      simp only [loadProgramHeader, h, if_false, Option.bind_eq_bind, Option.bind_some]
      exact ih s

end ElfLoader
