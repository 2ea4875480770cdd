import Mathlib.Data.List.TakeWhile
import SojebOS.Fat32ReadSlices
import SojebOS.Fat32VfsRead

/-!
# Three ways to read a file

`fat32_read_file` copies whole sectors and stops behind the last one of the file, `fat32_cat`
prints what it reads up to a NUL, and `fat32_read_absolute` copies as many bytes as asked for.
From the start of a file they go over the same sectors, on every disk: the size ends them even
where the links do not.
-/
namespace Fat32FileReaders

open ByteMemory MachineWord WhileLoop LinkedChain
open Fat32Disk Fat32Directory Fat32Files Fat32Tree Fat32Volume Fat32Entries
open Fat32RoundTrip Fat32VfsRead

/-- The sectors of a cluster are written whole. The state is what has been written and the
number of bytes that remain; the last sector of the file ends the read. -/
def readFileSectors (d : Bytes) (sector : ℕ) :
    List ℕ → List UInt8 × ℕ → Iteration (List UInt8 × ℕ) (List UInt8)
  | [], s => .again s
  | i :: is, (written, bytesRemaining) =>
    let written := written ++ (List.range 512).map (diskRead d (u32 (sector + i)))
    if 512 < bytesRemaining then readFileSectors d sector is (written, bytesRemaining - 512)
    else .leave written

def readFileBody (fs : Fat32) (d : Bytes) (s : ℕ × List UInt8 × ℕ) :
    Iteration (ℕ × List UInt8 × ℕ) (List UInt8) :=
  if offChain s.1 then .leave s.2.1
  else
    match readFileSectors d (clusterToSector fs s.1) (List.range fs.sectorsPerCluster) s.2 with
    | .again t => .again (fat32NextCluster fs d s.1, t)
    | .leave written => .leave written

/-- The bytes written from the destination on. -/
def fat32ReadFile (fs : Fat32) (d : Bytes) (entry : Fat32DirEntry) : Option (List UInt8) :=
  run (readFileBody fs d) wordCount (entry.firstCluster, [], entry.fileSize)

/-- Print the bytes of sector `i` of a cluster that belong to the file, up to a NUL. The state
is the number of bytes that remain and what has been printed. -/
def catSector (d : Bytes) (sector : ℕ) (s : ℕ × List UInt8) (i : ℕ) : ℕ × List UInt8 :=
  if 0 < s.1 then
    let toPrint := if 512 < s.1 then 512 else s.1
    let sectorBuffer := (List.range toPrint).map (diskRead d (u32 (sector + i)))
    (s.1 - toPrint, s.2 ++ sectorBuffer.takeWhile (· ≠ 0))
  else s

def catBody (fs : Fat32) (d : Bytes) (s : ℕ × ℕ × List UInt8) :
    Iteration (ℕ × ℕ × List UInt8) (List UInt8) :=
  if ¬ offChain s.1 ∧ 0 < s.2.1 then
    .again (fat32NextCluster fs d s.1,
      (List.range fs.sectorsPerCluster).foldl (catSector d (clusterToSector fs s.1)) s.2)
  else .leave s.2.2

/-- What `fat32_cat` prints. -/
def fat32Cat (fs : Fat32) (d : Bytes) (currentDirCluster : ℕ) (filename : List UInt8) :
    Option (Except String (List UInt8)) := do
  let found ← fat32FindFile fs d currentDirCluster filename
  match found with
  | none => return .error "File not found.\n"
  | some entry =>
    let printed ← run (catBody fs d) wordCount (entry.firstCluster, entry.fileSize, [])
    return .ok (printed ++ [newline])

section Whole

variable {fs : Fat32} {d : Bytes} {base c o m : ℕ} {r : ReadState} {bytes : List UInt8}

theorem readSectors_done (h : r.size = 0) (l : List ℕ) : l.foldl (readSector d base) r = r := by
  induction l with
  | nil => rfl
  | cons s l ih =>
    have hstay : readSector d base r s = r := by
      simp only [readSector, h, lt_irrefl, ↓reduceIte]
    rw [List.foldl_cons, hstay, ih]

theorem readLoop_done (h : r.size = 0) (hrun : run (readBody fs d) m (c, o, r) = some bytes) :
    bytes = r.copied := by
  cases m with
  | zero => cases hrun
  | succ m =>
    rw [run_leave (r := r.copied) (by simp only [readBody, h, lt_irrefl, false_and, ↓reduceIte])]
      at hrun
    exact (Option.some.inj hrun).symm

theorem readSectors_aligned (h : r.sectorOffset = 0) (l : List ℕ) :
    (l.foldl (readSector d base) r).sectorOffset = 0 := by
  induction l generalizing r with
  | nil => exact h
  | cons s l ih =>
    rw [List.foldl_cons]
    apply ih
    by_cases hsize : 0 < r.size
    · simp only [readSector, hsize, ↓reduceIte]
    · simp only [readSector, hsize, ↓reduceIte, h]

/-- Over the sectors of a cluster both reads go on with the same bytes, or the size has been
reached and the whole sectors contain what was asked for. -/
theorem readFileSectors_spec (d : Bytes) (base : ℕ) (l : List ℕ) (hsize : 0 < r.size)
    (hoff : r.sectorOffset = 0) :
    (readFileSectors d base l (r.copied, r.size) = .again
        ((l.foldl (readSector d base) r).copied, (l.foldl (readSector d base) r).size) ∧
      0 < (l.foldl (readSector d base) r).size) ∨
    ∃ written, readFileSectors d base l (r.copied, r.size) = .leave written ∧
      (l.foldl (readSector d base) r).size = 0 ∧
      (l.foldl (readSector d base) r).copied <+: written := by
  induction l generalizing r with
  | nil => exact .inl ⟨rfl, hsize⟩
  | cons s l ih =>
    rw [List.foldl_cons]
    by_cases hmore : 512 < r.size
    · have hread : readSector d base r s = ⟨r.size - 512, 0,
          r.copied ++ (List.range 512).map (diskRead d (u32 (base + s)))⟩ := by
        have hwhole : ¬ r.size < 512 := by omega
        simp only [readSector, hsize, hoff, Nat.sub_zero, hwhole, ↓reduceIte, Nat.zero_add]
      simp only [readFileSectors, hmore, ↓reduceIte, hread]
      generalize r.copied ++ (List.range 512).map (diskRead d (u32 (base + s))) = copied
      exact ih (r := ⟨r.size - 512, 0, copied⟩) (Nat.sub_pos_of_lt hmore) rfl
    · have hread : readSector d base r s = ⟨0, 0,
          r.copied ++ (List.range r.size).map (diskRead d (u32 (base + s)))⟩ := by
        have hchunk : (if r.size < 512 then r.size else 512) = r.size := by split <;> omega
        simp only [readSector, hsize, hoff, Nat.sub_zero, ↓reduceIte, Nat.zero_add, hchunk,
          Nat.sub_self]
      refine .inr ⟨r.copied ++ (List.range 512).map (diskRead d (u32 (base + s))), ?_, ?_, ?_⟩
      · simp only [readFileSectors, hmore, ↓reduceIte]
      · rw [readSectors_done (by rw [hread]), hread]
      · rw [readSectors_done (by rw [hread]), hread]
        have hstart : List.range r.size <+: List.range 512 := by
          obtain ⟨k, hk⟩ := Nat.exists_eq_add_of_le (Nat.le_of_not_lt hmore)
          rw [hk, List.range_add]
          exact List.prefix_append _ _
        exact (List.prefix_append_right_inj _).mpr (hstart.map _)

/-- What the read of a number of bytes gives is the start of what the read of whole sectors
gives. -/
theorem readFile_loop (hspc : 1 ≤ fs.sectorsPerCluster) (hoff : r.sectorOffset = 0)
    (hrun : run (readBody fs d) m (c, 0, r) = some bytes) :
    ∃ written, run (readFileBody fs d) m (c, r.copied, r.size) = some written ∧
      bytes <+: written := by
  induction m generalizing c r with
  | zero => cases hrun
  | succ m ih =>
    by_cases hend : offChain c
    · rw [run_leave (r := r.copied)
        (by simp only [readBody, hend, not_true_eq_false, and_false, ↓reduceIte])] at hrun
      cases hrun
      exact ⟨r.copied, run_leave (by simp only [readFileBody, hend, ↓reduceIte]) m,
        List.prefix_rfl⟩
    by_cases hsize : 0 < r.size
    · have hsectors : readBody fs d (c, 0, r) = .again (fat32NextCluster fs d c, 0,
          (List.range fs.sectorsPerCluster).foldl (readSector d (clusterToSector fs c)) r) := by
        obtain ⟨size, sectorOffset, copied⟩ := r
        obtain rfl : sectorOffset = 0 := hoff
        simp only [readBody, hsize, hend, not_false_eq_true, and_self, ↓reduceIte, Nat.zero_div,
          Nat.zero_mod, Nat.sub_zero, List.range_eq_range']
      rw [run_again hsectors] at hrun
      rcases readFileSectors_spec d (clusterToSector fs c)
        (List.range fs.sectorsPerCluster) hsize hoff with ⟨hagain, hmore⟩ | ⟨w, hleave, h0, hw⟩
      · rw [run_again (t := (fat32NextCluster fs d c, _))
          (by simp only [readFileBody, hend, ↓reduceIte, hagain]; rfl)]
        exact ih (readSectors_aligned hoff _) hrun
      · rw [run_leave (r := w) (by simp only [readFileBody, hend, ↓reduceIte, hleave])]
        rw [readLoop_done h0 hrun]
        exact ⟨w, rfl, hw⟩
    · have h0 : r.size = 0 := by omega
      rw [readLoop_done h0 hrun]
      obtain ⟨k, hk⟩ : ∃ k, fs.sectorsPerCluster = k + 1 := ⟨fs.sectorsPerCluster - 1, by omega⟩
      refine ⟨_, run_leave (r := r.copied ++ (List.range 512).map
        (diskRead d (u32 (clusterToSector fs c + 0)))) ?_ m, List.prefix_append _ _⟩
      have hfirst : List.range fs.sectorsPerCluster = 0 :: (List.range k).map Nat.succ := by
        rw [hk, List.range_succ_eq_map]
      simp only [readFileBody, hend, ↓reduceIte, hfirst, readFileSectors, h0, Nat.not_lt_zero]

end Whole

section Printed

variable {fs : Fat32} {d : Bytes} {base c : ℕ} {r : ReadState} {t : ℕ × List UInt8}

/-- The same number of bytes is left, and the same bytes have been printed as copied, unless
there was a NUL among them. -/
def Prints (r : ReadState) (t : ℕ × List UInt8) : Prop :=
  r.sectorOffset = 0 ∧ t.1 = r.size ∧ (t.2 = r.copied ∨ 0 ∈ r.copied)

theorem catSector_prints (h : Prints r t) (s : ℕ) :
    Prints (readSector d base r s) (catSector d base t s) := by
  obtain ⟨remaining, printed⟩ := t
  obtain ⟨hoff, rfl, hprinted⟩ := h
  by_cases hsize : 0 < r.size
  · have hchunk : (if 512 < r.size then 512 else r.size) =
        if r.size < 512 then r.size else 512 := by
      split <;> split <;> omega
    simp only [Prints, readSector, catSector, hsize, hoff, Nat.sub_zero, Nat.zero_add, hchunk,
      ↓reduceIte, List.mem_append, true_and]
    generalize (List.range _).map (diskRead d (u32 (base + s))) = chunk
    rcases hprinted with rfl | hzero
    · by_cases hzero : 0 ∈ chunk
      · exact .inr (.inr hzero)
      · left
        rw [List.takeWhile_eq_self_iff.mpr]
        intro b hb
        exact decide_eq_true fun h0 => hzero (h0 ▸ hb)
    · exact .inr (.inl hzero)
  · simp only [readSector, catSector, hsize, ↓reduceIte]
    exact ⟨hoff, rfl, hprinted⟩

theorem catSectors_prints (h : Prints r t) (l : List ℕ) :
    Prints (l.foldl (readSector d base) r) (l.foldl (catSector d base) t) := by
  induction l generalizing r t with
  | nil => exact h
  | cons s l ih => exact ih (catSector_prints h s)

theorem catBody_prints (fs : Fat32) (d : Bytes) {s : ℕ × ℕ × ReadState} {t : ℕ × ℕ × List UInt8}
    (h : s.1 = t.1 ∧ s.2.1 = 0 ∧ Prints s.2.2 t.2) :
    Iteration.Rel (fun s t => s.1 = t.1 ∧ s.2.1 = 0 ∧ Prints s.2.2 t.2)
      (fun bytes printed => printed = bytes ∨ 0 ∈ bytes) (readBody fs d s) (catBody fs d t) := by
  obtain ⟨c, o, r⟩ := s
  obtain ⟨c', t⟩ := t
  obtain ⟨rfl, rfl, hprints⟩ := h
  obtain ⟨hoff, hsize, hprinted⟩ := hprints
  by_cases hround : 0 < r.size ∧ ¬ offChain c
  · have hround' : ¬ offChain c ∧ 0 < t.1 := ⟨hround.2, hsize ▸ hround.1⟩
    simp only [readBody, catBody, hround, hround', not_false_eq_true, and_self, ↓reduceIte,
      Nat.zero_div, Nat.zero_mod, Nat.sub_zero, ← List.range_eq_range']
    exact .again ⟨rfl, rfl, catSectors_prints (r := ⟨r.size, 0, r.copied⟩)
      ⟨rfl, hsize, hprinted⟩ _⟩
  · have hround' : ¬ (¬ offChain c ∧ 0 < t.1) := fun h => hround ⟨hsize ▸ h.2, h.1⟩
    simp only [readBody, catBody, hround, hround', ↓reduceIte]
    exact .leave hprinted

end Printed

section Agreement

variable {fs : Fat32} {d : Bytes} {a size : ℕ}

theorem readLoop_ends (hspc : 1 ≤ fs.sectorsPerCluster) (hsize : size < 2 ^ 31) :
    ∃ bytes, run (readBody fs d) wordCount (a, 0, ⟨size, 0, []⟩) = some bytes := by
  have hcover : size ≤ size * bytesPerCluster fs :=
    Nat.le_mul_of_pos_right _ (Nat.mul_pos hspc (by norm_num))
  exact ⟨_, readLoop_trail hcover (by unfold wordCount; omega)⟩

/-- The three reads of a file agree, on every disk image. -/
theorem file_readers_agree (fs : Fat32) (d : Bytes) (entry : Fat32DirEntry)
    (hsize : entry.fileSize < 2 ^ 31)
    (hspc : 1 ≤ fs.sectorsPerCluster ∧ fs.sectorsPerCluster ≤ 128) :
    ∃ bytes written, fat32ReadAbsolute fs d entry.firstCluster 0 entry.fileSize = some bytes ∧
      fat32ReadFile fs d entry = some written ∧ written.take bytes.length = bytes ∧
      (0 ∉ bytes → ∀ cwd filename, fat32FindFile fs d cwd filename = some (some entry) →
        fat32Cat fs d cwd filename = some (.ok (bytes ++ [newline]))) := by
  have hpos : 0 < bytesPerCluster fs := Nat.mul_pos hspc.1 (by norm_num)
  obtain ⟨bytes, hloop⟩ := readLoop_ends (d := d) (a := entry.firstCluster) hspc.1 hsize
  obtain ⟨written, hwritten, hstart⟩ := readFile_loop hspc.1 rfl hloop
  refine ⟨bytes, written, (readAbsolute_zero hpos _ _).trans hloop, hwritten,
    (List.prefix_iff_eq_take.mp hstart).symm, ?_⟩
  intro hzero cwd filename hfind
  have hrel := run_simulation (fun _ _ => catBody_prints fs d) wordCount
    (s := (entry.firstCluster, 0, ⟨entry.fileSize, 0, []⟩))
    (t := (entry.firstCluster, entry.fileSize, []))
    ⟨rfl, rfl, rfl, rfl, .inl rfl⟩
  rw [hloop] at hrel
  generalize hrun : run (catBody fs d) wordCount (entry.firstCluster, entry.fileSize, []) = x
    at hrel
  cases hrel with
  | some hprinted =>
    rw [fat32Cat, hfind, Option.bind_eq_bind, Option.bind_some]
    simp only [hrun, Option.bind_eq_bind, Option.bind_some, hprinted.resolve_right hzero]
    rfl

theorem file_readers_agree_shortFile : ∃ bytes written,
    fat32ReadAbsolute tinyVolume shortFile (readEntry shortFile 1024).firstCluster 0
        (readEntry shortFile 1024).fileSize = some bytes ∧
      fat32ReadFile tinyVolume shortFile (readEntry shortFile 1024) = some written ∧
      written.take bytes.length = bytes ∧
      (0 ∉ bytes → ∀ cwd filename, fat32FindFile tinyVolume shortFile cwd filename =
          some (some (readEntry shortFile 1024)) →
        fat32Cat tinyVolume shortFile cwd filename = some (.ok (bytes ++ [newline]))) :=
  file_readers_agree tinyVolume shortFile (readEntry shortFile 1024)
    (by rw [shortFile_entry.2.2]; norm_num) (by decide)

end Agreement

end Fat32FileReaders
