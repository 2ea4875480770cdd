import SojebOS.ByteMemory
import SojebOS.MachineWord
import SojebOS.LinkedChain
import Mathlib.Data.Finset.Basic

/-!
# The kernel heap

A first-fit allocator whose block headers live in the heap bytes themselves: a header
of three words (size, free flag, next pointer) in front of each payload. Pointers are
32-bit addresses and 0 is NULL.
-/
namespace KernelHeap

open ByteMemory MachineWord WhileLoop LinkedChain

structure Heap where
  mem : Bytes
  freeListHead : ℕ

def blockSize : ℕ := 12
def alignment : ℕ := 8

/-- Round up to the alignment; sizes within 7 of 2^32 wrap to 0. -/
def align (size : ℕ) : ℕ := u32 (size + (alignment - 1)) &&& 0xFFFFFFF8

def sizeField (m : Bytes) (b : ℕ) : ℕ := load32 m b
def freeField (m : Bytes) (b : ℕ) : ℕ := load32 m (b + 4)
def nextField (m : Bytes) (b : ℕ) : ℕ := load32 m (b + 8)

def setSize (m : Bytes) (b v : ℕ) : Bytes := store32 m b v
def setFree (m : Bytes) (b v : ℕ) : Bytes := store32 m (b + 4) v
def setNext (m : Bytes) (b v : ℕ) : Bytes := store32 m (b + 8) v

def memcpy (m : Bytes) (dest src : ℕ) : ℕ → Bytes
  | 0 => m
  | n + 1 => memcpy (store8 m dest (m src)) (u32 (dest + 1)) (u32 (src + 1)) n

def kheapInit (m : Bytes) (start size : ℕ) : Heap :=
  let m := setSize m start (sub32 size blockSize)
  let m := setFree m start 1
  let m := setNext m start 0
  ⟨m, start⟩

def newFreeBlock (m : Bytes) (b size next : ℕ) : Bytes :=
  setNext (setFree (setSize m b size) b 1) b next

/-- The found block is split when a header and 8 bytes remain, and marked used. -/
def takeBlock (m : Bytes) (current size : ℕ) : Bytes :=
  let m :=
    if u32 (size + blockSize + alignment) ≤ sizeField m current then
      let newBlock := u32 (current + blockSize + size)
      let m := newFreeBlock m newBlock (sub32 (sub32 (sizeField m current) size) blockSize)
        (nextField m current)
      let m := setSize m current size
      setNext m current newBlock
    else m
  setFree m current 0

def fits (m : Bytes) (size current : ℕ) : Prop :=
  freeField m current ≠ 0 ∧ size ≤ sizeField m current

instance (m : Bytes) (size current : ℕ) : Decidable (fits m size current) :=
  inferInstanceAs (Decidable (_ ∧ _))

/-- The heap after the call and the returned pointer. -/
def kmalloc (h : Heap) (n : ℕ) : Option (Heap × ℕ) :=
  let size := align n
  let visit := fun current =>
    if fits h.mem size current then
      some (takeBlock h.mem current size, u32 (current + blockSize))
    else none
  (run (walkBody (nextField h.mem) (· = 0) visit) wordCount h.freeListHead).map fun hit =>
    match hit with
    | some (m, p) => ({ h with mem := m }, p)
    | none => (h, 0)

/-- `b` takes over the header and payload of `c`. -/
def absorb (m : Bytes) (b c : ℕ) : Bytes :=
  let m := setSize m b (u32 (sizeField m b + u32 (blockSize + sizeField m c)))
  setNext m b (nextField m c)

/-- One round of the search for the block before `block`; the state is (prev, current). -/
def findPrevBody (m : Bytes) (block : ℕ) (s : ℕ × ℕ) : Iteration (ℕ × ℕ) ℕ :=
  if s.2 ≠ 0 ∧ s.2 ≠ block then .again (s.2, nextField m s.2) else .leave s.1

/-- Coalesce with the next block if it is free, then with the previous one. -/
def coalesceAround (m : Bytes) (block prev : ℕ) : Bytes :=
  let m :=
    if nextField m block ≠ 0 ∧ freeField m (nextField m block) ≠ 0 then
      absorb m block (nextField m block)
    else m
  if prev ≠ 0 ∧ freeField m prev ≠ 0 then absorb m prev block else m

def kfree (h : Heap) (ptr : ℕ) : Option Heap :=
  if ptr = 0 then some h
  else
    let block := sub32 ptr blockSize
    let m := setFree h.mem block 1
    (run (findPrevBody m block) wordCount (0, h.freeListHead)).map fun prev =>
      { h with mem := coalesceAround m block prev }

/-- Growing in place: the block and its free successor are shared out anew. The
successor of the successor is merged with the rest when it is free too. -/
def growBlock (m : Bytes) (block size : ℕ) : Bytes :=
  let next := nextField m block
  let combinedSize := u32 (u32 (sizeField m block + blockSize) + sizeField m next)
  let nextNextBlock := nextField m next
  if u32 (size + blockSize + alignment) ≤ combinedSize then
    let newBlock := u32 (block + blockSize + size)
    let m := setSize m newBlock (sub32 (sub32 combinedSize size) blockSize)
    let m := setFree m newBlock 1
    let m :=
      if nextNextBlock ≠ 0 ∧ freeField m nextNextBlock ≠ 0 then
        let m := setSize m newBlock
          (u32 (sizeField m newBlock + u32 (blockSize + sizeField m nextNextBlock)))
        setNext m newBlock (nextField m nextNextBlock)
      else setNext m newBlock nextNextBlock
    let m := setSize m block size
    setNext m block newBlock
  else
    let m := setSize m block combinedSize
    setNext m block nextNextBlock

def canGrow (m : Bytes) (block size : ℕ) : Prop :=
  nextField m block ≠ 0 ∧ freeField m (nextField m block) ≠ 0 ∧
    size ≤ u32 (u32 (sizeField m block + blockSize) + sizeField m (nextField m block))

instance (m : Bytes) (block size : ℕ) : Decidable (canGrow m block size) :=
  inferInstanceAs (Decidable (_ ∧ _ ∧ _))

def krealloc (h : Heap) (ptr n : ℕ) : Option (Heap × ℕ) :=
  if ptr = 0 then kmalloc h n
  else if n = 0 then (kfree h ptr).map fun h => (h, 0)
  else
    let size := align n
    let block := sub32 ptr blockSize
    if size ≤ sizeField h.mem block then some (h, ptr)
    else if canGrow h.mem block size then
      some ({ h with mem := growBlock h.mem block size }, ptr)
    else do
      let (h₁, newPtr) ← kmalloc h size
      if newPtr = 0 then return (h₁, 0)
      let h₂ : Heap := { h₁ with mem := memcpy h₁.mem newPtr ptr (sizeField h₁.mem block) }
      let h₃ ← kfree h₂ ptr
      return (h₃, newPtr)

inductive Call where
  | kmalloc (n : ℕ)
  | krealloc (p n : ℕ)
  | kfree (p : ℕ)
  deriving DecidableEq, Repr

structure State where
  heap : Heap
  live : Finset ℕ

/-- Arguments are 32-bit values, and a pointer argument is NULL or live. -/
def Permitted (s : State) : Call → Prop
  | .kmalloc n => n < 2 ^ 32
  | .krealloc p n => (p = 0 ∨ p ∈ s.live) ∧ n < 2 ^ 32
  | .kfree p => p = 0 ∨ p ∈ s.live

def gain (p : ℕ) (live : Finset ℕ) : Finset ℕ := if p = 0 then live else insert p live

/-- A returned pointer becomes live. `krealloc` gives up its argument when it returns
another block, or NULL for the size 0. -/
def perform (s : State) : Call → Option State
  | .kmalloc n => (KernelHeap.kmalloc s.heap n).map fun (h, p) => ⟨h, gain p s.live⟩
  | .krealloc p n => (KernelHeap.krealloc s.heap p n).map fun (h, q) =>
      ⟨h, if q = 0 ∧ n ≠ 0 then s.live else gain q (s.live.erase p)⟩
  | .kfree p => (KernelHeap.kfree s.heap p).map fun h => ⟨h, s.live.erase p⟩

inductive Reachable (start size : ℕ) : State → Prop where
  | init (m : Bytes) : Reachable start size ⟨kheapInit m start size, ∅⟩
  | call {s t : State} {c : Call} : Reachable start size s → Permitted s c →
      perform s c = some t → Reachable start size t

end KernelHeap
