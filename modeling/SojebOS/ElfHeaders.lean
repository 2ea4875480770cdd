import SojebOS.ElfLoader

/-!
# The ELF32 header as the loader reads it

`e_ehsize` has 16 bits in the format and 32 in `elf_header_t`, so that every later field is
read two bytes too far: the number of program headers is taken for their size, and the size
of a section header for their number.
-/
namespace ElfHeaders

open ByteMemory MachineWord ElfLoader

structure Elf32Header where
  ident : Fin 16 → UInt8
  type : UInt16
  machine : UInt16
  version : UInt32
  entry : UInt32
  phoff : UInt32
  shoff : UInt32
  flags : UInt32
  ehsize : UInt16
  phentsize : UInt16
  phnum : UInt16
  shentsize : UInt16
  shnum : UInt16
  shstrndx : UInt16

/-- The 52 bytes of a header, little-endian, in front of `rest`. -/
def Elf32Header.encode (h : Elf32Header) (rest : Bytes) : Bytes :=
  let b := copyIn rest 0 16 fun i => h.ident (Fin.ofNat 16 i)
  let b := store16 (store16 b 16 h.type.toNat) 18 h.machine.toNat
  let b := store32 (store32 b 20 h.version.toNat) 24 h.entry.toNat
  let b := store32 (store32 b 28 h.phoff.toNat) 32 h.shoff.toNat
  let b := store16 (store32 b 36 h.flags.toNat) 40 h.ehsize.toNat
  let b := store16 (store16 b 42 h.phentsize.toNat) 44 h.phnum.toNat
  store16 (store16 (store16 b 46 h.shentsize.toNat) 48 h.shnum.toNat) 50 h.shstrndx.toNat

/-- Reads inside the 32-bit range deliver what the file has of them. -/
def Serves (file : OpenFile) (size : ℕ) (content : Bytes) : Prop :=
  ∀ offset n, offset + n < 2 ^ 32 →
    file offset n = (List.range (min n (size - offset))).map fun i => content (offset + i)

def fileOf (size : ℕ) (content : Bytes) : OpenFile := fun offset n =>
  (List.range (min n (size - offset))).map fun i => content (offset + i)

theorem fileOf_serves (size : ℕ) (content : Bytes) : Serves (fileOf size content) size content :=
  fun _ _ _ => rfl

/-- `elf_header_t` as `exec_elf` fills it. -/
def readHeader (file : OpenFile) (headerStack : Bytes) : ElfHeader :=
  elfHeader (readInto headerStack (file 0 elfHeaderSize))

theorem execElf_some (k : Paging.KernelImage) (s : Paging.State) (file : OpenFile)
    (headerStack : Bytes) (stack : ℕ → Bytes) : execElf k s (some file) headerStack stack =
      if load32 (readHeader file headerStack).eIdent 0 ≠ elfMagic then .status (-2)
      else if (readHeader file headerStack).eType ≠ etExec then .status (-3)
      else
        match (programHeaderLoop k file stack (readHeader file headerStack) s).bind
          (mapUserStack k) with
        | none => .fault
        | some s => .entered s (readHeader file headerStack).eEntry userStackTop :=
  rfl

/-- The loader takes from the file the values that the header encodes, and visits and loads
the program headers they describe. -/
structure DecodesAs (h : Elf32Header) (file : OpenFile) (headerStack : Bytes)
    (stack : ℕ → Bytes) : Prop where
  entry : (readHeader file headerStack).eEntry = h.entry.toNat
  phoff : (readHeader file headerStack).ePhoff = h.phoff.toNat
  phentsize : (readHeader file headerStack).ePhentsize = h.phentsize.toNat
  phnum : (readHeader file headerStack).ePhnum = h.phnum.toNat
  visits : visitedOffsets (readHeader file headerStack) =
    (List.range h.phnum.toNat).map fun i => u32 (h.phoff.toNat + i * h.phentsize.toNat)
  loads : segments file stack (readHeader file headerStack) =
    ((List.range h.phnum.toNat).map fun i => programHeader (readInto (stack i)
      (file (u32 (h.phoff.toNat + i * h.phentsize.toNat)) programHeaderSize))).filter
        (·.pType = ptLoad)

section Decoding

variable {h : Elf32Header} {b rest content headerStack : Bytes} {file : OpenFile} {size : ℕ}

theorem readInto_served (hserves : Serves file size content) {offset n i : ℕ}
    (hn : offset + n < 2 ^ 32) (hi : i < n) (hsize : offset + i < size) (stack : Bytes) :
    readInto stack (file offset n) i = content (offset + i) := by
  have hlt : i < min n (size - offset) := by omega
  rw [readInto, hserves offset n hn, List.length_map, List.length_range,
    copyIn_inside ⟨Nat.zero_le i, by omega⟩, Nat.sub_zero, List.getD_eq_getElem?_getD,
    List.getElem?_map, List.getElem?_range hlt]
  rfl

theorem header_served (hserves : Serves file size content) (hsize : 52 ≤ size)
    (hheader : ∀ i < 52, content i = h.encode rest i) (headerStack : Bytes) :
    ∀ i < 52, readInto headerStack (file 0 elfHeaderSize) i = h.encode rest i := by
  intro i hi
  have hlt : i < elfHeaderSize := lt_trans hi (by norm_num)
  rw [readInto_served hserves (by norm_num) hlt (by omega), Nat.zero_add]
  exact hheader i hi

theorem elfHeader_encode (hb : ∀ i < 52, b i = h.encode rest i) :
    (elfHeader b).eEntry = h.entry.toNat ∧ (elfHeader b).ePhoff = h.phoff.toNat ∧
      (elfHeader b).ePhentsize = h.phnum.toNat ∧ (elfHeader b).ePhnum = h.shentsize.toNat := by
  have h16 : ∀ a, a + 2 ≤ 52 → load16 b a = load16 (h.encode rest) a :=
    fun a ha => load16_congr fun x _ hx => hb x (by omega)
  have h32 : ∀ a, a + 4 ≤ 52 → load32 b a = load32 (h.encode rest) a :=
    fun a ha => load32_congr fun x _ hx => hb x (by omega)
  refine ⟨?_, ?_, ?_, ?_⟩
  · refine (h32 24 (by norm_num)).trans ?_
    simp (disch := omega) only [Elf32Header.encode, load32_store16_apart, load32_store32_apart]
    exact load32_store32 h.entry.toNat_lt
  · refine (h32 28 (by norm_num)).trans ?_
    simp (disch := omega) only [Elf32Header.encode, load32_store16_apart, load32_store32_apart]
    exact load32_store32 h.phoff.toNat_lt
  · refine (h16 44 (by norm_num)).trans ?_
    simp (disch := omega) only [Elf32Header.encode, load16_store16_apart]
    exact load16_store16 h.phnum.toNat_lt
  · refine (h16 46 (by norm_num)).trans ?_
    simp (disch := omega) only [Elf32Header.encode, load16_store16_apart]
    exact load16_store16 h.shentsize.toNat_lt

end Decoding

/-- The loader decodes a header as the format does exactly when the two fields it confuses,
each with its neighbour, hold equal values. -/
theorem decodesAs_iff (h : Elf32Header) (rest content headerStack : Bytes) (stack : ℕ → Bytes)
    {file : OpenFile} {size : ℕ} (hserves : Serves file size content) (hsize : 52 ≤ size)
    (hheader : ∀ i < 52, content i = h.encode rest i) :
    DecodesAs h file headerStack stack ↔ h.phentsize = h.phnum ∧ h.phnum = h.shentsize := by
  obtain ⟨hentry, hphoff, hphentsize, hphnum⟩ :=
    elfHeader_encode (header_served hserves hsize hheader headerStack)
  constructor
  · intro hd
    exact ⟨UInt16.toNat_inj.mp (hd.phentsize.symm.trans hphentsize),
      UInt16.toNat_inj.mp (hd.phnum.symm.trans hphnum)⟩
  · intro heq
    have hsz : (readHeader file headerStack).ePhentsize = h.phentsize.toNat := by
      rw [heq.1]
      exact hphentsize
    have hnum : (readHeader file headerStack).ePhnum = h.phnum.toNat := by
      rw [heq.2]
      exact hphnum
    have hoffset : ∀ i, programHeaderOffset (readHeader file headerStack) i =
        u32 (h.phoff.toNat + i * h.phentsize.toNat) := by
      intro i
      rw [programHeaderOffset, hsz]
      exact congrArg (fun o => u32 (o + i * h.phentsize.toNat)) hphoff
    refine ⟨hentry, hphoff, hsz, hnum, ?_, ?_⟩
    · rw [visitedOffsets, hnum]
      exact List.map_congr_left fun i _ => hoffset i
    · rw [segments, hnum]
      congr 1
      apply List.map_congr_left
      intro i _
      rw [readProgramHeader, hoffset]

def plainHeader : Elf32Header where
  ident := fun i => [0x7F, 0x45, 0x4C, 0x46, 1, 1, 1].getD i 0
  type := 2
  machine := 3
  version := 1
  entry := 0x8048000
  phoff := 52
  shoff := 0
  flags := 0
  ehsize := 52
  phentsize := 32
  phnum := 1
  shentsize := 40
  shnum := 0
  shstrndx := 0

def plainFile : OpenFile := fileOf 84 (plainHeader.encode fun _ => 0)

theorem decodesAs_iff_plainFile :
    DecodesAs plainHeader plainFile (fun _ => 0) (fun _ _ => 0) ↔
      plainHeader.phentsize = plainHeader.phnum ∧ plainHeader.phnum = plainHeader.shentsize :=
  decodesAs_iff plainHeader (fun _ => 0) (plainHeader.encode fun _ => 0) _ _
    (fileOf_serves 84 _) (by norm_num) fun _ _ => rfl

/-- The loader would visit 40 program headers, one byte apart. -/
theorem plainFile_not_decoded :
    ¬DecodesAs plainHeader plainFile (fun _ => 0) fun _ _ => 0 := by
  intro hd
  have hread := elfHeader_encode (header_served (h := plainHeader)
    (fileOf_serves 84 (plainHeader.encode fun _ => 0)) (by norm_num) (fun _ _ => rfl) fun _ => 0)
  exact absurd (hd.phnum.symm.trans hread.2.2.2) (by decide)

end ElfHeaders
