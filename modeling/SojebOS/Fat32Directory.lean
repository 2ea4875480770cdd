import SojebOS.Fat32Disk
import SojebOS.LinkedChain

/-!
# Directory entries, 8.3 names and directory walks

A directory is a chain of clusters full of 32-byte slots. Every search of the driver
reads the sectors of the chain in order and looks at the 16 slots of each.
-/
namespace Fat32Directory

open ByteMemory MachineWord WhileLoop LinkedChain Fat32Disk

structure Fat32DirEntry where
  name : List UInt8
  attr : UInt8
  firstClusterHigh : ℕ
  firstClusterLow : ℕ
  fileSize : ℕ
  deriving DecidableEq, Repr

def readEntry (buffer : Bytes) (off : ℕ) : Fat32DirEntry :=
  { name := (List.range 11).map fun j => buffer (off + j)
    attr := buffer (off + 11)
    firstClusterHigh := load16 buffer (off + 20)
    firstClusterLow := load16 buffer (off + 26)
    fileSize := load32 buffer (off + 28) }

def Fat32DirEntry.firstCluster (e : Fat32DirEntry) : ℕ :=
  e.firstClusterHigh <<< 16 ||| e.firstClusterLow

def attrDirectory : UInt8 := 0x10
def attrArchive : UInt8 := 0x20
def attrLongName : UInt8 := 0x0F

def Fat32DirEntry.isDirectory (e : Fat32DirEntry) : Prop := e.attr &&& attrDirectory ≠ 0

instance (e : Fat32DirEntry) : Decidable e.isDirectory :=
  inferInstanceAs (Decidable (e.attr &&& attrDirectory ≠ 0))

/-- `char` is signed: the difference of two characters as `memcmp` returns it. -/
def charValue (c : UInt8) : ℤ := if c.toNat < 128 then c.toNat else c.toNat - 256

def memcmp : List UInt8 → List UInt8 → ℤ
  | a :: as, b :: bs => if a ≠ b then charValue a - charValue b else memcmp as bs
  | _, _ => 0

def space : UInt8 := 0x20
def dot : UInt8 := 0x2E
def slash : UInt8 := 0x2F

def toUpper (c : UInt8) : UInt8 := if 0x61 ≤ c ∧ c ≤ 0x7A then c - 32 else c

/-- Copy at most `n` characters of the name part; the rest of the input comes second. -/
def copyName : ℕ → List UInt8 → List UInt8 × List UInt8
  | 0, s => ([], s)
  | _ + 1, [] => ([], [])
  | n + 1, c :: s =>
    if c = dot ∨ c = 0 then ([], c :: s)
    else
      let p := copyName n s
      (toUpper c :: p.1, p.2)

def copyExtension : ℕ → List UInt8 → List UInt8
  | 0, _ => []
  | _ + 1, [] => []
  | n + 1, c :: s => if c = 0 then [] else toUpper c :: copyExtension n s

def pad (n : ℕ) (s : List UInt8) : List UInt8 := s ++ List.replicate (n - s.length) space

/-- The 11 bytes of an 8.3 name. A string is the list of its characters before NUL. -/
def formatFilename (input : List UInt8) : List UInt8 :=
  if input.getD 0 0 = dot ∧ input.getD 1 0 = 0 then pad 11 [dot]
  else if input.getD 0 0 = dot ∧ input.getD 1 0 = dot ∧ input.getD 2 0 = 0 then
    pad 11 [dot, dot]
  else
    let p := copyName 8 input
    let ext := if p.2.getD 0 0 = dot then copyExtension 3 p.2.tail else []
    pad 8 p.1 ++ pad 3 ext

section Walks

variable {ρ : Type}

/-- The loops over the sectors of a cluster and the 16 slots of each sector. -/
def scanCluster (fs : Fat32) (sectorBase : ℕ) (visit : ℕ → ℕ → Option ρ) : Option ρ :=
  (List.range fs.sectorsPerCluster).findSome? fun s =>
    (List.range 16).findSome? fun i => visit (u32 (sectorBase + s)) i

/-- Visit the slots of a directory until one gives a result. The outer option is `none`
for a walk that never ends. -/
def walkDirectory (fs : Fat32) (d : Bytes) (cluster : ℕ) (visit : ℕ → ℕ → Option ρ) :
    Option (Option ρ) :=
  run (walkBody (fat32NextCluster fs d) offChain
    fun c => scanCluster fs (clusterToSector fs c) visit) wordCount cluster

end Walks

def deletedMark : UInt8 := 0xE5

/-- Slot `i` of a sector is the one searched for (`some (some _)`), or ends the
directory (`some none`), or is passed over. -/
def findVisit (d : Bytes) (searchName : List UInt8) (sector i : ℕ) :
    Option (Option Fat32DirEntry) :=
  let buffer := diskRead d sector
  let e := readEntry buffer (32 * i)
  if buffer (32 * i) = 0 then some none
  else if buffer (32 * i) = deletedMark then none
  else if e.attr = attrLongName then none
  else if memcmp e.name searchName = 0 then some (some e)
  else none

def fat32FindFile (fs : Fat32) (d : Bytes) (currentDirCluster : ℕ) (filename : List UInt8) :
    Option (Option Fat32DirEntry) :=
  (walkDirectory fs d currentDirCluster (findVisit d (formatFilename filename))).map
    Option.join

/-- The first slot of a directory whose name starts with 0x00 or 0xE5. -/
def freeSlotVisit (d : Bytes) (sector i : ℕ) : Option (ℕ × ℕ) :=
  let b := diskRead d sector (32 * i)
  if b = 0 ∨ b = deletedMark then some (sector, i) else none

/-- Assign the fields of an entry that a new file or directory gets. -/
def fillEntry (buffer : Bytes) (off : ℕ) (name : List UInt8) (attr : UInt8)
    (firstCluster size : ℕ) : Bytes :=
  let buffer := copyIn buffer off 11 fun j => name.getD j 0
  let buffer := store8 buffer (off + 11) attr
  let buffer := store16 buffer (off + 26) (firstCluster &&& 0xFFFF)
  let buffer := store16 buffer (off + 20) ((firstCluster >>> 16) &&& 0xFFFF)
  store32 buffer (off + 28) size

/-- Store a new entry in slot `i` of a sector. -/
def storeEntry (d : Bytes) (slot : ℕ × ℕ) (name : List UInt8) (attr : UInt8)
    (firstCluster size : ℕ) : Bytes :=
  diskWrite d slot.1 (fillEntry (diskRead d slot.1) (32 * slot.2) name attr firstCluster size)

end Fat32Directory
