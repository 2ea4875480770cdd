import Mathlib.Algebra.Order.Ring.Star
import SojebOS.ElfHeaders
import SojebOS.KernelHeapFrame
import SojebOS.VfsNodes
import SojebOS.Fat32PathComposition
import SojebOS.UserIsolation

/-!
# Rejected programs

`exec_elf` on the whole system: it opens the file, decides on the header, loads, and closes
the file before it returns or enters ring 3. Each way out with an error undoes what was
allocated on the way to it.
-/
namespace ExecRejection

open ByteMemory MachineWord FirstFit KernelHeap KernelHeapRefinement KernelHeapInvariant
open KernelHeapFreeing KernelHeapFrame WalkCycles
open Fat32Disk Fat32Directory Fat32Files Fat32Volume Fat32TreeGrowth Fat32PathComposition
open ElfLoader ElfHeaders NodeFiles VfsNodes

/-- How `exec_elf` ends on the system. -/
inductive Outcome where
  | returned (code : ℤ) (t : System)
  | fault
  | entered (t : System) (entry stackTop : ℕ)

def execElf (hooks : DriverHooks) (k : Paging.KernelImage) (fs : Fat32) (s : System)
    (filename : List UInt8) (headerStack : Bytes) (stack : ℕ → Bytes) : Option Outcome := do
  let (s, file) ← vfsOpen hooks fs s filename
  if file = 0 then return .returned (-1) s
  let opened := nodeFile fs s.disk (nodeAt s.heap.mem file)
  let header := readHeader opened headerStack
  if load32 header.eIdent 0 ≠ elfMagic then
    let s ← vfsClose s file
    return .returned (-2) s
  if header.eType ≠ etExec then
    let s ← vfsClose s file
    return .returned (-3) s
  -- no error is returned from here on; a store to the heap through the page tables is not followed
  match (programHeaderLoop k opened stack header s.paging).bind (mapUserStack k) with
  | none => return .fault
  | some paging =>
    let s ← vfsClose { s with paging } file
    return .entered s header.eEntry userStackTop

/-- What becomes of the system when the loader ends with `result` on an open file: the node is
given back, and nothing else differs than what the loader did to the page tables. -/
inductive Closed (s : System) : ExecResult → Outcome → Prop where
  | rejected (code : ℤ) (t : System) (h : NoTrace s t) : Closed s (.status code) (.returned code t)
  | fault : Closed s .fault .fault
  | entered (paging : Paging.State) (entry stackTop : ℕ) (t : System)
      (h : NoTrace { s with paging } t) :
      Closed s (.entered paging entry stackTop) (.entered t entry stackTop)

section Executions

variable {hooks : DriverHooks} {k : Paging.KernelImage} {fs : Fat32} {s t : System}
variable {filename : List UInt8} {headerStack : Bytes} {stack : ℕ → Bytes} {p lo hi : ℕ}
variable {bs : List Block}

def closeAfter (s : System) (file : ℕ) : ExecResult → Option Outcome
  | .status code => do
    let s ← vfsClose s file
    return .returned code s
  | .fault => some .fault
  | .entered paging entry stackTop => do
    let s ← vfsClose { s with paging } file
    return .entered s entry stackTop

theorem execElf_opened (hopen : vfsOpen hooks fs s filename = some (t, p)) (hp : p ≠ 0) :
    execElf hooks k fs s filename headerStack stack =
      closeAfter t p (ElfLoader.execElf k t.paging
        (some (nodeFile fs t.disk (nodeAt t.heap.mem p))) headerStack stack) := by
  simp only [execElf, hopen, hp, execElf_some, Option.bind_eq_bind, Option.bind_some, if_false]
  generalize nodeFile fs t.disk (nodeAt t.heap.mem p) = opened
  by_cases hmagic : load32 (readHeader opened headerStack).eIdent 0 ≠ elfMagic
  · rw [if_pos hmagic, if_pos hmagic]
    rfl
  rw [if_neg hmagic, if_neg hmagic]
  by_cases htype : (readHeader opened headerStack).eType ≠ etExec
  · rw [if_pos htype, if_pos htype]
    rfl
  rw [if_neg htype, if_neg htype]
  generalize (programHeaderLoop k opened stack (readHeader opened headerStack) t.paging).bind _ =
    loaded
  cases loaded with
  | none => rfl
  | some paging => rfl

/-- The node that `vfs_open` took is given back whatever the loader did. -/
theorem closeAfter_closed (hr : HeapRange lo hi) (h : Represents lo hi s.heap bs) {heap : Heap}
    (hopened : OpenedFrom lo hi bs heap p) (hp : p ≠ 0) (result : ExecResult) :
    ∃ o, closeAfter { s with heap } p result = some o ∧ Closed s result o := by
  cases result with
  | status code =>
    obtain ⟨heap', hclose, hlist⟩ : ∃ heap', vfsClose { s with heap } p =
        some { s with heap := heap' } ∧ BlockList heap' bs := vfsClose_opened hr h.arena hopened hp
    refine ⟨.returned code { s with heap := heap' }, ?_,
      Closed.rejected code _ ⟨⟨bs, h.listed, hlist⟩, rfl, rfl, rfl⟩⟩
    rw [closeAfter, hclose]
    rfl
  | fault => exact ⟨_, rfl, Closed.fault⟩
  | entered paging entry stackTop =>
    obtain ⟨heap', hclose, hlist⟩ : ∃ heap', vfsClose { s with heap, paging } p =
        some { s with heap := heap', paging } ∧ BlockList heap' bs :=
      vfsClose_opened hr h.arena hopened hp
    refine ⟨.entered { s with heap := heap', paging } entry stackTop, ?_,
      Closed.entered paging entry stackTop _ ⟨⟨bs, h.listed, hlist⟩, rfl, rfl, rfl⟩⟩
    rw [closeAfter]
    simp only [hclose]
    rfl

/-- The file is not opened and there is no trace, or the loader runs on the file that the
lookup finds, and the node is given back. -/
theorem execElf_spec (hr : HeapRange lo hi) (h : Represents lo hi s.heap bs)
    (hacyclic : Acyclic (fat32NextCluster fs s.disk) offChain) :
    (∃ t, execElf hooks k fs s filename headerStack stack = some (.returned (-1) t) ∧
      NoTrace s t) ∨
    ∃ found o, fat32FileLookup fs s.disk s.currentDirCluster filename = some (some found) ∧
      execElf hooks k fs s filename headerStack stack = some o ∧
      Closed s (ElfLoader.execElf k s.paging (some (nodeFile fs s.disk found)) headerStack stack)
        o := by
  rcases vfsOpen_spec hr h hacyclic hooks filename with
    ⟨t, hopen, htrace⟩ | ⟨found, heap, p, hlook, hp, hopened, hopen⟩
  · refine Or.inl ⟨t, ?_, htrace⟩
    simp only [execElf, hopen, Option.bind_eq_bind, Option.bind_some, if_true]
    rfl
  · obtain ⟨hname, hflags, hsize, hinode, hread⟩ := fileLookup_fields hlook
    have hfilled : OpenedFrom lo hi bs { heap with mem := fillNode hooks heap.mem p found } p :=
      hopened.write fun x hx => fillNode_outside hx
    obtain ⟨o, hclose, hclosed⟩ := closeAfter_closed hr h hfilled hp
      (ElfLoader.execElf k s.paging (some (nodeFile fs s.disk found)) headerStack stack)
    refine Or.inr ⟨found, o, hlook, ?_, hclosed⟩
    rw [execElf_opened hopen hp, nodeAt_fillNode hname hflags hsize hinode hread]
    exact hclose

end Executions

/-- On every reachable heap and a volume without cycles `exec_elf` ends, and where it returns a
negative code it leaves no trace. -/
theorem rejected_program_leaves_no_trace (hooks : DriverHooks) (k : Paging.KernelImage)
    (fs : Fat32) (s : System) {start size : ℕ} {live : Finset ℕ} (hs : blockSize ≤ size)
    (hs' : size + alignment < 2 ^ 32) (he : start + size ≤ 2 ^ 32)
    (hheap : Reachable start size ⟨s.heap, live⟩)
    (hacyclic : Acyclic (fat32NextCluster fs s.disk) offChain) (filename : List UInt8)
    (headerStack : Bytes) (stack : ℕ → Bytes) :
    ∃ o, execElf hooks k fs s filename headerStack stack = some o ∧
      ∀ code t, o = .returned code t → code < 0 → NoTrace s t := by
  rcases reachable_null_or_blocks hs hs' he hheap with ⟨hhead, -⟩ | ⟨hr, bs, hinv⟩
  · -- an allocator that starts at address 0 has no block to give
    have hopen : vfsOpen hooks fs s filename = some (s, 0) := by
      rw [vfsOpen, kmalloc_at_null hhead]
      rfl
    refine ⟨.returned (-1) s, ?_, fun code t ht _ => ?_⟩
    · rw [execElf, hopen]
      rfl
    · cases ht
      exact ⟨⟨[], hhead, hhead⟩, rfl, rfl, rfl⟩
  · rcases execElf_spec hr hinv.represents hacyclic with
      ⟨t, hexec, htrace⟩ | ⟨found, o, -, hexec, hclosed⟩
    · refine ⟨_, hexec, fun code u hu _ => ?_⟩
      cases hu
      exact htrace
    · refine ⟨o, hexec, fun code u hu _ => ?_⟩
      subst hu
      generalize ElfLoader.execElf k s.paging _ headerStack stack = result at hclosed
      cases hclosed with
      | rejected _ _ htrace => exact htrace

theorem oneWritten_acyclic : Acyclic (fat32NextCluster tinyVolume oneWritten) offChain :=
  acyclic_of_short (fun _ => added_tail oneWritten_adds) (by decide +kernel)

/-- The heap after the kernel, nothing mapped, and a disk with a file `A` of four bytes. -/
def writtenSystem : System where
  heap := kheapInit (fun _ => 0) 0x600000 0x400000
  paging := ⟨fun _ => 0, fun _ => 0⟩
  disk := oneWritten
  currentDirCluster := 2

/-- The file is opened and found to be no program. -/
theorem rejected_program_leaves_no_trace_writtenSystem :
    ∃ o, execElf ⟨0x110000, 0x110100, by norm_num, by norm_num⟩ UserIsolation.bootImage tinyVolume
        writtenSystem [0x41] (fun _ => 0) (fun _ _ => 0) = some o ∧
      ∀ code t, o = .returned code t → code < 0 → NoTrace writtenSystem t :=
  have hheap : Reachable 0x600000 0x400000 ⟨writtenSystem.heap, ∅⟩ := Reachable.init fun _ => 0
  rejected_program_leaves_no_trace _ _ tinyVolume writtenSystem (by norm_num [blockSize])
    (by norm_num [alignment]) (by norm_num) hheap oneWritten_acyclic _ _ _

end ExecRejection
