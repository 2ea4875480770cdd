import Mathlib.Data.Nat.Digits.Defs
import SojebOS.ElfStores

/-!
# What a short file leaves to the stack

A read that delivers fewer bytes than a structure has leaves the rest of the structure as the
stack held it, and `exec_elf` decides on the fields all the same. Its outcome is the file's
exactly when the bytes that the file does deliver settle every decision.
-/
namespace ElfTruncation

open ByteMemory MachineWord LinkedChain Paging PagingInit UserIsolation
open ElfLoader ElfHeaders NodeFiles ElfStores
open Fat32Disk Fat32Directory Fat32Files Fat32Volume

abbrev magicBytes : List UInt8 := [0x7F, 0x45, 0x4C, 0x46]
abbrev execBytes : List UInt8 := [2, 0]
abbrev loadBytes : List UInt8 := [1, 0, 0, 0]

/-- What `exec_elf` decides: a status, or the entry point and the calls of
`paging_map_user_memory` that the program headers ask for, page faults apart. -/
inductive Decision where
  | rejected (code : ℤ)
  | enters (entry : ℕ) (calls : List (ℕ × ℕ))

def mappingCalls (file : OpenFile) (stack : ℕ → Bytes) (header : ElfHeader) : List (ℕ × ℕ) :=
  (segments file stack header).map fun ph => (ph.pVaddr, ph.pMemsz)

def decision (vfsOpen : Option OpenFile) (headerStack : Bytes) (stack : ℕ → Bytes) : Decision :=
  match vfsOpen with
  | none => .rejected (-1)
  | some file =>
    let header := readHeader file headerStack
    if load32 header.eIdent 0 ≠ elfMagic then .rejected (-2)
    else if header.eType ≠ etExec then .rejected (-3)
    else .enters header.eEntry (mappingCalls file stack header)

/-- The outcome does not depend on what the stack held: not what is decided, and in no state of
the page tables what becomes of it. -/
structure StackIndependent (vfsOpen : Option OpenFile) : Prop where
  decides : ∀ headerStack headerStack' stack stack',
    decision vfsOpen headerStack stack = decision vfsOpen headerStack' stack'
  results : ∀ k s headerStack headerStack' stack stack',
    execElf k s vfsOpen headerStack stack = execElf k s vfsOpen headerStack' stack'

/-- A delivered byte differs from the one that is wanted at its place. -/
def Contradicts (bytes : List UInt8) (start : ℕ) (want : List UInt8) : Prop :=
  ∃ i < want.length, ∃ b, bytes[start + i]? = some b ∧ b ≠ want.getD i 0

/-- The header with `fill` for the bytes that the file does not deliver. -/
def filledHeader (file : OpenFile) (fill : UInt8) : ElfHeader := readHeader file fun _ => fill

/-- The bytes of program header `i`. -/
def headerBytes (file : OpenFile) (i : ℕ) : List UInt8 :=
  file (programHeaderOffset (filledHeader file 0) i) programHeaderSize

/-- The delivered bytes settle every decision: one of them rejects the file, or they reach to
`e_phnum` and every program header that may be visited is ignored for its type, or is visited
in any case and delivered up to `p_memsz`. -/
inductive Determined (file : OpenFile) : Prop where
  | notElf (h : Contradicts (file 0 elfHeaderSize) 0 magicBytes)
  | notExecutable (h : Contradicts (file 0 elfHeaderSize) 16 execBytes)
  | loads (hlen : 46 ≤ (file 0 elfHeaderSize).length)
      (hheaders : ∀ i < (filledHeader file 0xFF).ePhnum,
        Contradicts (headerBytes file i) 0 loadBytes ∨
          (i < (filledHeader file 0).ePhnum ∧ 24 ≤ (headerBytes file i).length))

/-- Reads deliver at most what is asked for, and what lies behind a short read is behind the
end of the file. -/
structure Truncates (file : OpenFile) : Prop where
  length_le : ∀ offset size, (file offset size).length ≤ size
  short : ∀ n offset size, (file 0 n).length < n → n ≤ offset → file offset size = []

section Buffers

variable {bytes : List UInt8} {stack stack' b : Bytes} {start i : ℕ} {want : List UInt8}

/-- The bytes of a structure in memory are those of a field's value. -/
def Holds (b : Bytes) (start : ℕ) (want : List UInt8) : Prop :=
  ∀ i < want.length, b (start + i) = want.getD i 0

theorem readInto_delivered (hi : i < bytes.length) : readInto stack bytes i = bytes.getD i 0 := by
  rw [readInto, copyIn_inside ⟨Nat.zero_le i, by omega⟩, Nat.sub_zero]

theorem readInto_left (hi : bytes.length ≤ i) : readInto stack bytes i = stack i := by
  rw [readInto, copyIn_outside (by omega)]

theorem readInto_same (hi : i < bytes.length) :
    readInto stack bytes i = readInto stack' bytes i := by
  rw [readInto_delivered hi, readInto_delivered hi]

theorem not_holds_of_contradicts (h : Contradicts bytes start want) :
    ¬Holds (readInto stack bytes) start want := by
  intro hholds
  obtain ⟨i, hi, b, hb, hne⟩ := h
  obtain ⟨hlt, he⟩ := List.getElem?_eq_some_iff.mp hb
  apply hne
  rw [← hholds i hi, readInto_delivered hlt, List.getD_eq_getElem _ _ hlt, he]

theorem holds_of_not_contradicts (h : ¬Contradicts bytes start want)
    (hstack : Holds stack start want) : Holds (readInto stack bytes) start want := by
  intro i hi
  by_cases hlt : start + i < bytes.length
  · rw [readInto_delivered hlt, List.getD_eq_getElem _ _ hlt]
    by_contra hne
    exact h ⟨i, hi, _, List.getElem?_eq_getElem hlt, hne⟩
  · rw [readInto_left (Nat.le_of_not_lt hlt)]
    exact hstack i hi

def fieldValue (bytes : List UInt8) : ℕ := Nat.ofDigits 256 (bytes.map UInt8.toNat)

theorem load32_eq (b : Bytes) (a : ℕ) :
    load32 b a = fieldValue ((List.range 4).map fun i => b (a + i)) := by
  have hbytes : (List.range 4).map (fun i => b (a + i)) =
      [b a, b (a + 1), b (a + 2), b (a + 3)] := rfl
  rw [hbytes]
  simp only [load32, fieldValue, List.map_cons, List.map_nil, Nat.ofDigits_cons, Nat.ofDigits_nil]
  omega

theorem load16_eq (b : Bytes) (a : ℕ) :
    load16 b a = fieldValue ((List.range 2).map fun i => b (a + i)) := by
  have hbytes : (List.range 2).map (fun i => b (a + i)) = [b a, b (a + 1)] := rfl
  rw [hbytes]
  simp only [load16, fieldValue, List.map_cons, List.map_nil, Nat.ofDigits_cons, Nat.ofDigits_nil]
  omega

theorem holds_iff (b : Bytes) (start : ℕ) (want : List UInt8) : Holds b start want ↔
    fieldValue ((List.range want.length).map fun i => b (start + i)) = fieldValue want := by
  have hsame : Holds b start want ↔
      (List.range want.length).map (fun i => b (start + i)) = want := by
    constructor
    · intro h
      apply List.ext_getElem
      · rw [List.length_map, List.length_range]
      · intro i _ hi
        rw [List.getElem_map, List.getElem_range, h i hi, List.getD_eq_getElem _ _ hi]
    · intro h i hi
      have hget := congrArg (·.getD i 0) h
      rw [← hget, List.getD_eq_getElem _ _ (by rw [List.length_map, List.length_range]; exact hi),
        List.getElem_map, List.getElem_range]
  have hsmall : ∀ bytes : List UInt8, ∀ d ∈ bytes.map UInt8.toNat, d < 256 := by
    intro bytes d hd
    obtain ⟨x, -, rfl⟩ := List.mem_map.mp hd
    exact x.toNat_lt
  rw [hsame]
  constructor
  · exact congrArg fieldValue
  · intro h
    have hlen : (((List.range want.length).map fun i => b (start + i)).map UInt8.toNat).length =
        (want.map UInt8.toNat).length := by
      simp only [List.length_map, List.length_range]
    exact List.map_injective_iff.mpr (fun _ _ => UInt8.toNat_inj.mp)
      (Nat.ofDigits_inj_of_len_eq (by norm_num) hlen (hsmall _) (hsmall _) h)

theorem magic_iff (b : Bytes) : load32 b 0 = elfMagic ↔ Holds b 0 magicBytes := by
  rw [holds_iff, load32_eq]
  exact Iff.rfl

theorem exec_iff (b : Bytes) : load16 b 16 = etExec ↔ Holds b 16 execBytes := by
  rw [holds_iff, load16_eq]
  exact Iff.rfl

theorem load_iff (b : Bytes) : load32 b 0 = ptLoad ↔ Holds b 0 loadBytes := by
  rw [holds_iff, load32_eq]
  exact Iff.rfl

end Buffers

section Headers

variable {file : OpenFile} {headerStack headerStack' : Bytes} {stack stack' : ℕ → Bytes}
variable {header header' : ElfHeader} {i n : ℕ}

theorem Truncates.node {fs : Fat32} {d : Bytes} {node : VfsNode} {l : List ℕ}
    (h : NodeOf fs d node l) : Truncates (nodeFile fs d node) where
  length_le := by
    intro offset size
    rw [nodeFile_length h, deliveredLength, cutSize]
    have hle : u32 (offset + size) ≤ offset + size := Nat.mod_le _ _
    split
    · exact Nat.zero_le size
    · split <;> omega
  short := by
    intro n offset size hlen hoff
    rw [nodeFile_length h, deliveredLength, cutSize, Nat.sub_zero] at hlen
    have hle : u32 (0 + n) ≤ 0 + n := Nat.mod_le _ _
    rw [← List.length_eq_zero_iff, nodeFile_length h, deliveredLength]
    split at hlen
    · rw [if_pos (by omega)]
    · split at hlen
      · by_cases hsize : node.size ≤ offset
        · rw [if_pos hsize]
        · omega
      · split
        · rfl
        · have hpast : l.length * bytesPerCluster fs ≤ offset := by omega
          rw [Nat.sub_eq_zero_of_le hpast, Nat.min_zero]

def usedFields (ph : ProgramHeader) : ProgramHeader :=
  { ph with pPaddr := 0, pFlags := 0, pAlign := 0 }

/-- What the loop loads for program header `i`, if anything. -/
def loadedFrom (file : OpenFile) (stack : ℕ → Bytes) (header : ElfHeader) (i : ℕ) :
    List ProgramHeader :=
  if (readProgramHeader file stack header i).pType = ptLoad then
    [usedFields (readProgramHeader file stack header i)]
  else []

theorem segments_used (file : OpenFile) (stack : ℕ → Bytes) (header : ElfHeader) :
    (segments file stack header).map usedFields =
      (List.range header.ePhnum).flatMap (loadedFrom file stack header) := by
  unfold segments
  induction List.range header.ePhnum with
  | nil => rfl
  | cons i is ih =>
    rw [List.map_cons, List.flatMap_cons, loadedFrom]
    by_cases hi : (readProgramHeader file stack header i).pType = ptLoad
    · rw [List.filter_cons_of_pos (by simpa using hi), if_pos hi, List.map_cons, ih]
      rfl
    · rw [List.filter_cons_of_neg (by simpa using hi), if_neg hi, ih]
      rfl

theorem loop_used (k : KernelImage) (s : State) :
    programHeaderLoop k file stack header s =
      ((segments file stack header).map usedFields).foldlM (loadProgramHeader k file) s := by
  rw [programHeaderLoop_eq, List.foldlM_map]
  rfl

theorem calls_used (file : OpenFile) (stack : ℕ → Bytes) (header : ElfHeader) :
    mappingCalls file stack header =
      ((segments file stack header).map usedFields).map fun ph => (ph.pVaddr, ph.pMemsz) := by
  rw [mappingCalls, List.map_map]
  rfl

theorem load32_same {bytes : List UInt8} {b b' : Bytes} {a : ℕ} (ha : a + 4 ≤ bytes.length) :
    load32 (readInto b bytes) a = load32 (readInto b' bytes) a :=
  load32_congr fun _ _ hx => readInto_same (by omega)

theorem load16_same {bytes : List UInt8} {b b' : Bytes} {a : ℕ} (ha : a + 2 ≤ bytes.length) :
    load16 (readInto b bytes) a = load16 (readInto b' bytes) a :=
  load16_congr fun _ _ hx => readInto_same (by omega)

theorem offset_same (hlen : 46 ≤ (file 0 elfHeaderSize).length) (headerStack : Bytes) (i : ℕ) :
    programHeaderOffset (readHeader file headerStack) i =
      programHeaderOffset (filledHeader file 0) i := by
  have hoff : (readHeader file headerStack).ePhoff = (filledHeader file 0).ePhoff :=
    load32_same (show 28 + 4 ≤ _ by omega)
  have hsize : (readHeader file headerStack).ePhentsize = (filledHeader file 0).ePhentsize :=
    load16_same (show 44 + 2 ≤ _ by omega)
  rw [programHeaderOffset, programHeaderOffset, hoff, hsize]

theorem phnum_between (file : OpenFile) (headerStack : Bytes) :
    (filledHeader file 0).ePhnum ≤ (readHeader file headerStack).ePhnum ∧
      (readHeader file headerStack).ePhnum ≤ (filledHeader file 0xFF).ePhnum := by
  have hbyte : ∀ i, (readInto (fun _ => 0) (file 0 elfHeaderSize) i).toNat ≤
        (readInto headerStack (file 0 elfHeaderSize) i).toNat ∧
      (readInto headerStack (file 0 elfHeaderSize) i).toNat ≤
        (readInto (fun _ => 0xFF) (file 0 elfHeaderSize) i).toNat := by
    intro i
    by_cases hi : i < (file 0 elfHeaderSize).length
    · rw [readInto_delivered hi, readInto_delivered hi, readInto_delivered hi]
      exact ⟨le_rfl, le_rfl⟩
    · have hge := Nat.le_of_not_lt hi
      rw [readInto_left hge, readInto_left hge, readInto_left hge]
      have hlt := (headerStack i).toNat_lt
      constructor
      · exact Nat.zero_le _
      · change (headerStack i).toNat ≤ 255
        omega
  have h46 := hbyte 46
  have h47 := hbyte (46 + 1)
  change load16 _ 46 ≤ load16 _ 46 ∧ load16 _ 46 ≤ load16 _ 46
  unfold load16
  omega

theorem loadedFrom_ignored
    (hoff : programHeaderOffset header i = programHeaderOffset (filledHeader file 0) i)
    (h : Contradicts (headerBytes file i) 0 loadBytes) : loadedFrom file stack header i = [] := by
  rw [loadedFrom, if_neg]
  rw [readProgramHeader, hoff]
  exact fun he => not_holds_of_contradicts h ((load_iff _).mp he)

theorem loadedFrom_same
    (hoff : programHeaderOffset header i = programHeaderOffset (filledHeader file 0) i)
    (hoff' : programHeaderOffset header' i = programHeaderOffset (filledHeader file 0) i)
    (h : 24 ≤ (headerBytes file i).length) :
    loadedFrom file stack header i = loadedFrom file stack' header' i := by
  have hload : ∀ a, a + 4 ≤ 24 → load32 (readInto (stack i) (headerBytes file i)) a =
      load32 (readInto (stack' i) (headerBytes file i)) a :=
    fun a ha => load32_same (by omega)
  have hused : usedFields (readProgramHeader file stack header i) =
      usedFields (readProgramHeader file stack' header' i) := by
    rw [readProgramHeader, readProgramHeader, hoff, hoff']
    simp only [usedFields, programHeader, ProgramHeader.mk.injEq, and_true]
    exact ⟨hload 0 (by omega), hload 4 (by omega), hload 8 (by omega), trivial,
      hload 16 (by omega), hload 20 (by omega)⟩
  have htype := congrArg ProgramHeader.pType hused
  change (readProgramHeader file stack header i).pType =
    (readProgramHeader file stack' header' i).pType at htype
  rw [loadedFrom, loadedFrom, htype, hused]

theorem used_determined (hlen : 46 ≤ (file 0 elfHeaderSize).length)
    (hheaders : ∀ i < (filledHeader file 0xFF).ePhnum,
      Contradicts (headerBytes file i) 0 loadBytes ∨
        (i < (filledHeader file 0).ePhnum ∧ 24 ≤ (headerBytes file i).length))
    (headerStack : Bytes) (stack : ℕ → Bytes) :
    (segments file stack (readHeader file headerStack)).map usedFields =
      (List.range (filledHeader file 0).ePhnum).flatMap
        (loadedFrom file (fun _ _ => 0) (filledHeader file 0)) := by
  obtain ⟨hmin, hmax⟩ := phnum_between file headerStack
  have hoff := offset_same hlen headerStack
  obtain ⟨m, hm⟩ := Nat.exists_eq_add_of_le hmin
  rw [segments_used, hm, List.range_add, List.flatMap_append, List.flatMap_map]
  have hrest : (List.range m).flatMap (fun i =>
      loadedFrom file stack (readHeader file headerStack) ((filledHeader file 0).ePhnum + i)) =
      [] := by
    rw [List.flatMap_eq_nil_iff]
    intro i hi
    rw [List.mem_range] at hi
    rcases hheaders ((filledHeader file 0).ePhnum + i) (by omega) with hignored | ⟨hlt, -⟩
    · exact loadedFrom_ignored (hoff _) hignored
    · omega
  rw [hrest, List.append_nil]
  apply List.flatMap_congr
  intro i hi
  rw [List.mem_range] at hi
  rcases hheaders i (by omega) with hignored | ⟨-, hdelivered⟩
  · rw [loadedFrom_ignored (hoff i) hignored, loadedFrom_ignored rfl hignored]
  · exact loadedFrom_same (hoff i) rfl hdelivered

theorem decision_congr (hmagic : load32 (readHeader file headerStack).eIdent 0 =
      load32 (readHeader file headerStack').eIdent 0)
    (htype : (readHeader file headerStack).eType = (readHeader file headerStack').eType)
    (hentry : (readHeader file headerStack).eEntry = (readHeader file headerStack').eEntry)
    (hused : (segments file stack (readHeader file headerStack)).map usedFields =
      (segments file stack' (readHeader file headerStack')).map usedFields) :
    decision (some file) headerStack stack = decision (some file) headerStack' stack' ∧
      ∀ k s, execElf k s (some file) headerStack stack =
        execElf k s (some file) headerStack' stack' := by
  constructor
  · simp only [decision, calls_used, hmagic, htype, hentry, hused]
  · intro k s
    simp only [execElf_some, loop_used, hmagic, htype, hentry, hused]

theorem independent_of_determined (h : Determined file) : StackIndependent (some file) := by
  cases h with
  | notElf h =>
    have hmagic : ∀ g, load32 (readHeader file g).eIdent 0 ≠ elfMagic :=
      fun g he => not_holds_of_contradicts h ((magic_iff _).mp he)
    constructor
    · intro g g' st st'
      rw [decision, decision, if_pos (hmagic g), if_pos (hmagic g')]
    · intro k s g g' st st'
      rw [execElf_some, execElf_some, if_pos (hmagic g), if_pos (hmagic g')]
  | notExecutable h =>
    have htype : ∀ g, (readHeader file g).eType ≠ etExec :=
      fun g he => not_holds_of_contradicts h ((exec_iff _).mp he)
    -- the byte that is wrong lies behind the magic number
    have hmagic : ∀ g g', load32 (readHeader file g).eIdent 0 =
        load32 (readHeader file g').eIdent 0 := by
      obtain ⟨i, -, b, hb, -⟩ := h
      obtain ⟨hlt, -⟩ := List.getElem?_eq_some_iff.mp hb
      exact fun g g' => load32_same (by omega)
    constructor
    · intro g g' st st'
      rw [decision, decision, if_pos (htype g), if_pos (htype g'), hmagic g g']
    · intro k s g g' st st'
      rw [execElf_some, execElf_some, if_pos (htype g), if_pos (htype g'), hmagic g g']
  | loads hlen hheaders =>
    have hcongr : ∀ g g' st st', decision (some file) g st = decision (some file) g' st' ∧
        ∀ k s, execElf k s (some file) g st = execElf k s (some file) g' st' := by
      intro g g' st st'
      apply decision_congr
      · exact load32_same (by omega)
      · exact load16_same (by omega)
      · exact load32_same (by omega)
      · rw [used_determined hlen hheaders, used_determined hlen hheaders]
    constructor
    · exact fun g g' st st' => (hcongr g g' st st').1
    · exact fun k s g g' st st' => (hcongr g g' st st').2 k s

end Headers

section Necessity

variable {file : OpenFile} {stack : ℕ → Bytes} {header : ElfHeader} {i m n : ℕ}

def acceptedStack (rest : Bytes) : Bytes := fun i =>
  if i < 4 then magicBytes.getD i 0 else if i = 16 then 2 else if i = 17 then 0 else rest i

/-- Stack contents that complete `p_type`, and the top byte of `p_memsz` with `top`. -/
def loadStack (top : UInt8) : Bytes := fun i => if i = 0 then 1 else if i = 23 then top else 0

theorem decision_accepted (hmagic : ¬Contradicts (file 0 elfHeaderSize) 0 magicBytes)
    (htype : ¬Contradicts (file 0 elfHeaderSize) 16 execBytes) (rest : Bytes) (stack : ℕ → Bytes) :
    decision (some file) (acceptedStack rest) stack =
      .enters (readHeader file (acceptedStack rest)).eEntry
        (mappingCalls file stack (readHeader file (acceptedStack rest))) := by
  have h₀ : Holds (acceptedStack rest) 0 magicBytes := by
    intro i hi
    have hlow : i < 4 := hi
    rw [Nat.zero_add, acceptedStack, if_pos hlow]
  have h₁ : Holds (acceptedStack rest) 16 execBytes := by
    intro i hi
    match i, hi with
    | 0, _ => rfl
    | 1, _ => rfl
  have hm : load32 (readHeader file (acceptedStack rest)).eIdent 0 = elfMagic :=
    (magic_iff _).mpr (holds_of_not_contradicts hmagic h₀)
  have ht : (readHeader file (acceptedStack rest)).eType = etExec :=
    (exec_iff _).mpr (holds_of_not_contradicts htype h₁)
  simp only [decision, hm, ht, ne_eq, not_true_eq_false, if_false]

theorem calls_of_independent (h : StackIndependent (some file))
    (hmagic : ¬Contradicts (file 0 elfHeaderSize) 0 magicBytes)
    (htype : ¬Contradicts (file 0 elfHeaderSize) 16 execBytes) (rest rest' : Bytes)
    (stack stack' : ℕ → Bytes) :
    mappingCalls file stack (readHeader file (acceptedStack rest)) =
      mappingCalls file stack' (readHeader file (acceptedStack rest')) := by
  have heq := h.decides (acceptedStack rest) (acceptedStack rest') stack stack'
  rw [decision_accepted hmagic htype, decision_accepted hmagic htype] at heq
  exact (Decision.enters.inj heq).2

/-- The calls for program header `i`, if any. -/
def callsFrom (file : OpenFile) (stack : ℕ → Bytes) (header : ElfHeader) (i : ℕ) : List (ℕ × ℕ) :=
  if (readProgramHeader file stack header i).pType = ptLoad then
    [((readProgramHeader file stack header i).pVaddr,
      (readProgramHeader file stack header i).pMemsz)]
  else []

theorem mappingCalls_eq (file : OpenFile) (stack : ℕ → Bytes) (header : ElfHeader) :
    mappingCalls file stack header =
      (List.range header.ePhnum).flatMap (callsFrom file stack header) := by
  rw [calls_used, segments_used, List.map_flatMap]
  apply List.flatMap_congr
  intro i _
  rw [loadedFrom, callsFrom]
  split <;> rfl

theorem callsFrom_load {top : UInt8}
    (h : ¬Contradicts (file (programHeaderOffset header i) programHeaderSize) 0 loadBytes)
    (hstack : stack i = loadStack top) :
    callsFrom file stack header i = [((readProgramHeader file stack header i).pVaddr,
      (readProgramHeader file stack header i).pMemsz)] := by
  rw [callsFrom, if_pos]
  apply (load_iff _).mpr
  apply holds_of_not_contradicts h
  intro j hj
  rw [hstack]
  match j, hj with
  | 0, _ => rfl
  | 1, _ => rfl
  | 2, _ => rfl
  | 3, _ => rfl

theorem memsz_top {top : UInt8}
    (h : (file (programHeaderOffset header i) programHeaderSize).length < 24)
    (hstack : stack i = loadStack top) :
    (readProgramHeader file stack header i).pMemsz / 2 ^ 24 = top.toNat := by
  have hbyte : readInto (stack i) (file (programHeaderOffset header i) programHeaderSize) 23 =
      top := by
    rw [readInto_left (by omega), hstack]
    rfl
  change load32 (readInto (stack i) (file (programHeaderOffset header i) programHeaderSize)) 20 /
    2 ^ 24 = top.toNat
  generalize readInto (stack i) (file (programHeaderOffset header i) programHeaderSize) = b at hbyte
  have h0 := (b 20).toNat_lt
  have h1 := (b (20 + 1)).toNat_lt
  have h2 := (b (20 + 2)).toNat_lt
  rw [load32, hbyte]
  omega

theorem flatMap_range_cancel {α : Type} {f g : ℕ → List α} (hi : i < n)
    (hother : ∀ j, j ≠ i → f j = g j) (h : (List.range n).flatMap f = (List.range n).flatMap g) :
    f i = g i := by
  obtain ⟨m, rfl⟩ := Nat.exists_eq_add_of_lt hi
  have hsuffix : (List.range m).flatMap (fun j => f (i + 1 + j)) =
      (List.range m).flatMap fun j => g (i + 1 + j) :=
    List.flatMap_congr fun j _ => hother _ (by omega)
  have hprefix : (List.range i).flatMap f = (List.range i).flatMap g :=
    List.flatMap_congr fun j hj => hother j (List.mem_range.mp hj).ne
  rw [show i + m + 1 = i + 1 + m by omega, List.range_add, List.flatMap_append,
    List.flatMap_append, List.flatMap_map, List.flatMap_map, hsuffix, List.append_left_inj,
    List.range_succ, List.flatMap_append, List.flatMap_append, hprefix, List.append_right_inj,
    List.flatMap_singleton, List.flatMap_singleton] at h
  exact h

theorem flatMap_range_rest {α : Type} {f : ℕ → List α} (hle : m ≤ n)
    (h : (List.range n).flatMap f = (List.range m).flatMap f) (hm : m ≤ i) (hi : i < n) :
    f i = [] := by
  obtain ⟨r, rfl⟩ := Nat.exists_eq_add_of_le hle
  rw [List.range_add, List.flatMap_append, List.append_right_eq_self, List.flatMap_map,
    List.flatMap_eq_nil_iff] at h
  have hnone := h (i - m) (List.mem_range.mpr (by omega))
  rw [Nat.add_sub_cancel' hm] at hnone
  exact hnone

theorem acceptedStack_rest {rest : Bytes} (hi : 18 ≤ i) : acceptedStack rest i = rest i := by
  rw [acceptedStack, if_neg (by omega), if_neg (by omega), if_neg (by omega)]

theorem accepted_left {rest : Bytes} (hi : 18 ≤ i) (hlen : (file 0 elfHeaderSize).length ≤ i) :
    readInto (acceptedStack rest) (file 0 elfHeaderSize) i = rest i := by
  rw [readInto_left hlen, acceptedStack_rest hi]

theorem accepted_phnum (file : OpenFile) (fill : UInt8) :
    (readHeader file (acceptedStack fun _ => fill)).ePhnum = (filledHeader file fill).ePhnum := by
  change load16 _ 46 = load16 _ 46
  apply load16_congr
  intro x hx _
  by_cases hlt : x < (file 0 elfHeaderSize).length
  · exact readInto_same hlt
  · have hge := Nat.le_of_not_lt hlt
    rw [accepted_left (by omega) hge, readInto_left hge]

theorem not_contradicts_nil (start : ℕ) (want : List UInt8) : ¬Contradicts [] start want := by
  intro hc
  obtain ⟨j, -, b, hb, -⟩ := hc
  exact absurd hb (by simp)

theorem offset_behind (hphoff : header.ePhoff < 2 ^ 32) (hlow : 256 ≤ header.ePhentsize)
    (hhigh : header.ePhentsize < 512) : ∃ i < 2, elfHeaderSize ≤ programHeaderOffset header i := by
  simp only [programHeaderOffset, u32]
  by_cases hfar : elfHeaderSize ≤ header.ePhoff
  · exact ⟨0, by norm_num, by norm_num at hfar ⊢; omega⟩
  · exact ⟨1, by norm_num, by norm_num at hfar ⊢; omega⟩

/-- A file that ends before `e_phnum` lets the stack say whether a segment is loaded. -/
theorem header_delivered (ht : Truncates file) (h : StackIndependent (some file))
    (hmagic : ¬Contradicts (file 0 elfHeaderSize) 0 magicBytes)
    (htype : ¬Contradicts (file 0 elfHeaderSize) 16 execBytes) :
    46 ≤ (file 0 elfHeaderSize).length := by
  by_contra hlen
  let rest : Bytes := fun i => if i = 45 then 1 else if i = 46 then 2 else 0
  have hcalls := calls_of_independent h hmagic htype (fun _ => 0) rest (fun _ => loadStack 0)
    fun _ => loadStack 0
  have hleft : ∀ r i, 45 ≤ i →
      readInto (acceptedStack r) (file 0 elfHeaderSize) i = r i :=
    fun r i hi => accepted_left (by omega) (by omega)
  -- no header in one run
  have hnone : (readHeader file (acceptedStack fun _ => 0)).ePhnum = 0 := by
    change load16 (readInto _ _) 46 = 0
    rw [load16, hleft _ _ (by omega), hleft _ _ (by omega)]
    rfl
  -- two in the other, at least 256 bytes apart
  have htwo : (readHeader file (acceptedStack rest)).ePhnum = 2 := by
    change load16 (readInto _ _) 46 = 2
    rw [load16, hleft _ _ (by omega), hleft _ _ (by omega)]
    rfl
  have hsize : 256 ≤ (readHeader file (acceptedStack rest)).ePhentsize ∧
      (readHeader file (acceptedStack rest)).ePhentsize < 512 := by
    change 256 ≤ load16 (readInto _ _) 44 ∧ load16 (readInto _ _) 44 < 512
    have hbyte := (readInto (acceptedStack rest) (file 0 elfHeaderSize) 44).toNat_lt
    have htop : (rest 45).toNat = 1 := rfl
    rw [load16, hleft _ (44 + 1) (by omega), htop]
    omega
  -- so that one of them is behind the end of the file
  obtain ⟨i, hi, hoff⟩ := offset_behind (load32_lt _ _) hsize.1 hsize.2
  have hlow : (file 0 elfHeaderSize).length < elfHeaderSize :=
    (Nat.lt_of_not_le hlen).trans (by norm_num)
  have hempty : file (programHeaderOffset (readHeader file (acceptedStack rest)) i)
      programHeaderSize = [] := ht.short elfHeaderSize _ _ hlow hoff
  have hsilent : ¬Contradicts (file (programHeaderOffset (readHeader file (acceptedStack rest)) i)
      programHeaderSize) 0 loadBytes := by
    rw [hempty]
    exact not_contradicts_nil 0 loadBytes
  rw [mappingCalls_eq, mappingCalls_eq, hnone, htwo, List.range_zero, List.flatMap_nil, eq_comm,
    List.flatMap_eq_nil_iff] at hcalls
  have hload := hcalls i (List.mem_range.mpr hi)
  rw [callsFrom_load hsilent rfl] at hload
  exact List.cons_ne_nil _ _ hload

section Headers

variable (h : StackIndependent (some file))
variable (hmagic : ¬Contradicts (file 0 elfHeaderSize) 0 magicBytes)
variable (htype : ¬Contradicts (file 0 elfHeaderSize) 16 execBytes)
include h hmagic htype

/-- The top byte of `p_memsz` is delivered where the header may be visited and loaded: two runs
that differ in it make different calls. -/
theorem memsz_delivered (hi : i < (filledHeader file 0xFF).ePhnum)
    (hload : ¬Contradicts (file (programHeaderOffset
      (readHeader file (acceptedStack fun _ => 0xFF)) i) programHeaderSize) 0 loadBytes) :
    24 ≤ (file (programHeaderOffset (readHeader file (acceptedStack fun _ => 0xFF)) i)
      programHeaderSize).length := by
  by_contra hshort
  let full : ElfHeader := readHeader file (acceptedStack fun _ => 0xFF)
  let low : ℕ → Bytes := fun _ => loadStack 0
  let high : ℕ → Bytes := Function.update low i (loadStack 1)
  have hlow : low i = loadStack 0 := rfl
  have hhigh : high i = loadStack 1 := Function.update_self i _ _
  have hother : ∀ j, j ≠ i → high j = low j := fun j hj => Function.update_of_ne hj _ _
  have hcalls := calls_of_independent h hmagic htype (fun _ => 0xFF) (fun _ => 0xFF) low high
  rw [mappingCalls_eq, mappingCalls_eq, accepted_phnum] at hcalls
  have hone := flatMap_range_cancel hi (fun j hj => by
    rw [callsFrom, callsFrom, readProgramHeader, readProgramHeader, hother j hj]) hcalls
  rw [callsFrom_load hload hlow, callsFrom_load hload hhigh] at hone
  have hmemsz : (readProgramHeader file low full i).pMemsz =
      (readProgramHeader file high full i).pMemsz :=
    congrArg Prod.snd (List.head_eq_of_cons_eq hone)
  have hzero := memsz_top (Nat.lt_of_not_le hshort) hlow
  have hfirst := memsz_top (Nat.lt_of_not_le hshort) hhigh
  rw [← hmemsz, hzero] at hfirst
  exact absurd hfirst (by decide)

/-- A header that may be loaded is visited in any case: a run that visits it and one that does
not make different calls. -/
theorem visited_anyway (hlen : 46 ≤ (file 0 elfHeaderSize).length)
    (hi : i < (filledHeader file 0xFF).ePhnum)
    (hload : ¬Contradicts (file (programHeaderOffset
      (readHeader file (acceptedStack fun _ => 0xFF)) i) programHeaderSize) 0 loadBytes) :
    i < (filledHeader file 0).ePhnum := by
  by_contra hlate
  let low : ℕ → Bytes := fun _ => loadStack 0
  have hcalls := calls_of_independent h hmagic htype (fun _ => 0xFF) (fun _ => 0) low low
  have hsame : callsFrom file low (readHeader file (acceptedStack fun _ => 0)) =
      callsFrom file low (readHeader file (acceptedStack fun _ => 0xFF)) := by
    funext j
    rw [callsFrom, callsFrom, readProgramHeader, readProgramHeader, offset_same hlen,
      offset_same hlen]
  rw [mappingCalls_eq, mappingCalls_eq, accepted_phnum, accepted_phnum, hsame] at hcalls
  have hbounds := phnum_between file fun _ => 0xFF
  have hnone := flatMap_range_rest (hbounds.1.trans hbounds.2) hcalls (Nat.le_of_not_lt hlate) hi
  rw [callsFrom_load hload rfl] at hnone
  exact List.cons_ne_nil _ _ hnone

theorem headers_delivered (hlen : 46 ≤ (file 0 elfHeaderSize).length)
    (hi : i < (filledHeader file 0xFF).ePhnum)
    (hload : ¬Contradicts (headerBytes file i) 0 loadBytes) :
    i < (filledHeader file 0).ePhnum ∧ 24 ≤ (headerBytes file i).length := by
  have hfull : programHeaderOffset (readHeader file (acceptedStack fun _ => 0xFF)) i =
      programHeaderOffset (filledHeader file 0) i := offset_same hlen _ i
  rw [headerBytes, ← hfull] at hload ⊢
  exact ⟨visited_anyway h hmagic htype hlen hi hload, memsz_delivered h hmagic htype hi hload⟩

end Headers

theorem determined_of_independent (ht : Truncates file) (h : StackIndependent (some file)) :
    Determined file := by
  by_cases hmagic : Contradicts (file 0 elfHeaderSize) 0 magicBytes
  · exact Determined.notElf hmagic
  by_cases htype : Contradicts (file 0 elfHeaderSize) 16 execBytes
  · exact Determined.notExecutable htype
  have hlen := header_delivered ht h hmagic htype
  refine Determined.loads hlen fun i hi => ?_
  by_cases hload : Contradicts (headerBytes file i) 0 loadBytes
  · exact Or.inl hload
  · exact Or.inr (headers_delivered h hmagic htype hlen hi hload)

end Necessity

/-- Whatever name is given, the outcome is the file's exactly when there is no file, or the
bytes it delivers settle every decision. -/
theorem outcome_from_file_iff (fs : Fat32) (d : Bytes) (cwd : ℕ) (filename : List UInt8)
    {found : Option VfsNode} (hlook : fat32FileLookup fs d cwd filename = some found)
    (hchain : ∀ node, found = some node → ∃ l, NodeOf fs d node l) :
    StackIndependent (found.map (nodeFile fs d)) ↔
      ∀ node, found = some node → Determined (nodeFile fs d node) := by
  cases found with
  | none =>
    refine iff_of_true ⟨fun _ _ _ _ => rfl, fun _ _ _ _ _ _ => rfl⟩ ?_
    intro node hnode
    cases hnode
  | some node =>
    obtain ⟨l, hl⟩ := hchain node rfl
    constructor
    · intro h n hn
      cases hn
      exact determined_of_independent (Truncates.node hl) h
    · exact fun h => independent_of_determined (h node rfl)

theorem outcome_from_file_iff_overrun :
    StackIndependent ((some overrunNode).map (nodeFile tinyVolume overrunDisk)) ↔
      ∀ node, some overrunNode = some node → Determined (nodeFile tinyVolume overrunDisk node) :=
  outcome_from_file_iff tinyVolume overrunDisk 2 [0x41] overrun_lookup fun _ hnode =>
    ⟨[3], Option.some.inj hnode ▸ overrun_nodeOf⟩

/-- A file `A` without bytes, and so without a cluster. -/
def emptyFile : Bytes := fillEntry blankDisk 1024 (formatFilename [0x41]) attrArchive 0 0

def emptyNode : VfsNode :=
  { name := strncpy [0x41] 255, flags := vfsFile, size := 0, inode := 0,
    read := some .fat32VfsRead }

/-- Where the stack happens to hold the magic number the empty file is an ELF file. -/
theorem emptyFile_outcomes :
    fat32FileLookup tinyVolume emptyFile 2 [0x41] = some (some emptyNode) ∧
      execElf bootImage (pagingInit bootImage fun _ => 0)
          (some (nodeFile tinyVolume emptyFile emptyNode)) (fun _ => 0) (fun _ _ => 0) =
        .status (-2) ∧
      execElf bootImage (pagingInit bootImage fun _ => 0)
          (some (nodeFile tinyVolume emptyFile emptyNode)) (fun i => magicBytes.getD i 0)
          (fun _ _ => 0) = .status (-3) ∧
      ¬StackIndependent (some (nodeFile tinyVolume emptyFile emptyNode)) := by
  have hzero : execElf bootImage (pagingInit bootImage fun _ => 0)
      (some (nodeFile tinyVolume emptyFile emptyNode)) (fun _ => 0) (fun _ _ => 0) =
        .status (-2) := by
    rw [execElf_some, if_pos (by decide)]
  have hmagic : execElf bootImage (pagingInit bootImage fun _ => 0)
      (some (nodeFile tinyVolume emptyFile emptyNode)) (fun i => magicBytes.getD i 0)
      (fun _ _ => 0) = .status (-3) := by
    rw [execElf_some, if_neg (by decide), if_pos (by decide)]
  refine ⟨by decide +kernel, hzero, hmagic, fun h => ?_⟩
  have heq := h.results bootImage (pagingInit bootImage fun _ => 0) (fun _ => 0)
    (fun i => magicBytes.getD i 0) (fun _ _ => 0) fun _ _ => 0
  rw [hzero, hmagic] at heq
  injection heq with hcode
  exact absurd hcode (by decide)

end ElfTruncation
