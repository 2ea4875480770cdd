import SojebOS.Fat32RoundTrip

/-!
# Reading a part of a file

`fat32_vfs_read` cuts a request at the size of the file when `offset + size` lies behind it.
The sum is taken in 32 bits: a sum that wraps is small, nothing is cut, and the read runs to
the end of the cluster chain.
-/
namespace Fat32VfsRead

open ByteMemory MachineWord WhileLoop LinkedChain
open Fat32Disk Fat32Directory Fat32Files Fat32Layout Fat32Volume Fat32Entries Fat32RoundTrip

def FilesFit (fs : Fat32) (d : Bytes) : Prop :=
  ∀ a p, Directory fs dotEntry d a → SlotOf fs d a p → Named d p →
    ¬(readEntry d p).isDirectory → ∃ l, Extent fs d (readEntry d p).firstCluster l ∧
      (readEntry d p).fileSize ≤ l.length * bytesPerCluster fs

/-- The memory after a read to `buffer`, and the value returned. -/
def readInto (fs : Fat32) (d : Bytes) (node : VfsNode) (offset size : ℕ) (m : Bytes)
    (buffer : ℕ) : Option (Bytes × ℕ) :=
  (fat32VfsRead fs d node offset size).map fun bytes =>
    (copyIn m buffer bytes.length fun i => bytes.getD i 0, bytes.length)

/-- The read returns what is left of the file behind `offset`, or `size` if that is less; it
stores these bytes of the file in the buffer and nothing else. -/
def HonoursSize (fs : Fat32) (d : Bytes) (node : VfsNode) (offset size : ℕ) : Prop :=
  ∃ l, Extent fs d node.inode l ∧ ∀ m buffer, ∃ m',
    readInto fs d node offset size m buffer = some (m', min size (node.size - offset)) ∧
      (∀ i < min size (node.size - offset), m' (buffer + i) = chainByte fs d l (offset + i)) ∧
      ∀ x, x < buffer ∨ buffer + min size (node.size - offset) ≤ x → m' x = m x

section Reads

variable {fs : Fat32} {d : Bytes} {node : VfsNode} {offset size n : ℕ} {l : List ℕ}

/-- A read of `n` bytes of the chain is what is asked for when `n` is the right number. -/
theorem honoursSize_iff (hl : Extent fs d node.inode l)
    (hread : fat32VfsRead fs d node offset size =
      some ((List.range n).map fun i => chainByte fs d l (offset + i))) :
    HonoursSize fs d node offset size ↔ n = min size (node.size - offset) := by
  have hinto : ∀ m buffer, readInto fs d node offset size m buffer = some
      (copyIn m buffer n fun i => ((List.range n).map fun i =>
        chainByte fs d l (offset + i)).getD i 0, n) := by
    intro m buffer
    simp only [readInto, hread, Option.map_some, List.length_map, List.length_range]
  constructor
  · rintro ⟨k, -, hall⟩
    obtain ⟨m', hrun, -⟩ := hall (fun _ => 0) 0
    rw [hinto] at hrun
    exact (Prod.mk.inj (Option.some.inj hrun)).2
  · intro hn
    rw [HonoursSize, ← hn]
    refine ⟨l, hl, fun m buffer => ⟨_, hinto m buffer, fun i hi => ?_, fun x hx => ?_⟩⟩
    · rw [copyIn_inside (by omega), Nat.add_sub_cancel_left, List.getD_eq_getElem _ _ (by simpa),
        List.getElem_map, List.getElem_range]
    · exact copyIn_outside (by omega)

theorem vfsRead_behind (h : node.size ≤ offset) :
    fat32VfsRead fs d node offset size =
      some ((List.range 0).map fun i => chainByte fs d l (offset + i)) := by
  simp only [fat32VfsRead, h, ↓reduceIte, List.range_zero, List.map_nil]

theorem vfsRead_cut (hg : Geometry fs) (hl : Chain fs d node.inode l)
    (hfit : node.size ≤ l.length * bytesPerCluster fs) (h : offset < node.size)
    (hsum : offset + size < 2 ^ 32) :
    fat32VfsRead fs d node offset size = some ((List.range (min size (node.size - offset))).map
      fun i => chainByte fs d l (offset + i)) := by
  have hoff : ¬node.size ≤ offset := by omega
  have hu : u32 (offset + size) = offset + size := Nat.mod_eq_of_lt hsum
  simp only [fat32VfsRead, hoff, ↓reduceIte, hu]
  by_cases hcut : node.size < offset + size
  · have hcount : min (node.size - offset) (l.length * bytesPerCluster fs - offset) =
        min size (node.size - offset) := by omega
    rw [if_pos hcut, readAbsolute_at hg hl (by omega), hcount]
  · have hcount : min size (l.length * bytesPerCluster fs - offset) =
        min size (node.size - offset) := by omega
    rw [if_neg hcut, readAbsolute_at hg hl (by omega), hcount]

/-- A sum that wraps is below the offset: the read ends with the request or the chain. -/
theorem vfsRead_wrapped (hg : Geometry fs) (hl : Chain fs d node.inode l)
    (hfit : node.size ≤ l.length * bytesPerCluster fs) (h : offset < node.size)
    (hsize : size < 2 ^ 32) (hnode : node.size < 2 ^ 32) (hsum : 2 ^ 32 ≤ offset + size) :
    fat32VfsRead fs d node offset size =
      some ((List.range (min size (l.length * bytesPerCluster fs - offset))).map
        fun i => chainByte fs d l (offset + i)) := by
  have hoff : ¬node.size ≤ offset := by omega
  have hcut : ¬node.size < u32 (offset + size) := by
    simp only [u32]
    omega
  simp only [fat32VfsRead, hoff, ↓reduceIte, hcut]
  exact readAbsolute_at hg hl (by omega) size

theorem fileLookup_file {cwd : ℕ} {name : List UInt8} (hw : WellFormed fs dotEntry d cwd)
    (hfit : FilesFit fs d) (hlook : fat32FileLookup fs d cwd name = some (some node))
    (hfile : node.flags = vfsFile) :
    node.size < 2 ^ 32 ∧ ∃ l, Extent fs d node.inode l ∧
      node.size ≤ l.length * bytesPerCluster fs := by
  obtain ⟨l, hl⟩ := hw.chain hw.current
  rw [fat32FileLookup, findFile_eq hw.geometry hl, Option.map_some, Option.some.injEq,
    Option.map_eq_some_iff] at hlook
  obtain ⟨entry, hentry, rfl⟩ := hlook
  obtain ⟨pre, p, post, hs, hlive, hmatch, rfl, -⟩ := search_some hentry
  have hslot : SlotOf fs d cwd p := ⟨l, hl, by rw [hs]; simp⟩
  have hdir : ¬(readEntry d p).isDirectory := by
    intro hdir
    simp [hdir, vfsDirectory, vfsFile] at hfile
  exact ⟨load32_lt _ _, hfit cwd p hw.current hslot ⟨hlive, hmatch.1⟩ hdir⟩

end Reads

/-- A file `A` of ten bytes takes the cluster behind the root. -/
def shortFile : Bytes :=
  fillEntry (fun x => if 520 ≤ x ∧ x < 528 then 0xFF else 0) 1024 (formatFilename [0x41])
    attrArchive 3 10

def shortNode : VfsNode :=
  { name := strncpy [0x41] 255, flags := vfsFile, size := 10, inode := 3,
    read := some .fat32VfsRead }

theorem shortFile_root : Chain tinyVolume shortFile 2 [2] := by
  refine ⟨.cons (by decide) (.nil (by decide +kernel)), fun c hc => ?_, by simp⟩
  rw [List.mem_singleton.mp hc]
  exact ⟨by decide, by decide⟩

theorem shortFile_chain : Chain tinyVolume shortFile 3 [3] := by
  refine ⟨.cons (by decide) (.nil (by decide +kernel)), fun c hc => ?_, by simp⟩
  rw [List.mem_singleton.mp hc]
  exact ⟨by decide, by decide⟩

theorem shortFile_slot {p : ℕ} (hp : p ∈ slots tinyVolume [2]) (hn : Named shortFile p) :
    p = 1024 := by
  have hfree : ∀ p ∈ slots tinyVolume [2], p = 1024 ∨ shortFile p = 0 := by decide +kernel
  exact (hfree p hp).resolve_right hn.live.1

theorem shortFile_entry : ¬(readEntry shortFile 1024).isDirectory ∧
    (readEntry shortFile 1024).firstCluster = 3 ∧ (readEntry shortFile 1024).fileSize = 10 := by
  decide +kernel

theorem shortFile_wellFormed : WellFormed tinyVolume dotEntry shortFile 2 := by
  refine wellFormed_of_files (by decide) shortFile_root ?_ (fun _ => [3]) ?_ ?_ ?_ ?_
  · intro p hp hn
    rw [shortFile_slot hp hn]
    exact shortFile_entry.1
  · intro p hp hn
    rw [shortFile_slot hp hn, shortFile_entry.2.1]
    exact .inr shortFile_chain
  · exact fun p _ _ => by simp
  · intro p hp q hq hpn hqn hne
    exact absurd ((shortFile_slot hp hpn).trans (shortFile_slot hq hqn).symm) hne
  · decide +kernel

theorem shortFile_filesFit : FilesFit tinyVolume shortFile := by
  intro a p ha hp hn _
  have hflat : ∀ q ∈ slots tinyVolume [2], Named shortFile q →
      ¬(readEntry shortFile q).isDirectory := by
    intro q hq hqn
    rw [shortFile_slot hq hqn]
    exact shortFile_entry.1
  rw [directory_of_flat_root shortFile_root hflat ha] at hp
  rw [shortFile_slot (hp.mem shortFile_root) hn, shortFile_entry.2.1, shortFile_entry.2.2]
  exact ⟨[3], .inr shortFile_chain, by decide⟩

theorem shortFile_lookup :
    fat32FileLookup tinyVolume shortFile 2 [0x41] = some (some shortNode) := by
  decide +kernel

/-- The size of a file is honoured unless the sum wraps and the last cluster has room left. -/
theorem honours_size_iff (fs : Fat32) (d : Bytes) (cwd : ℕ) (hw : WellFormed fs dotEntry d cwd)
    (hfit : FilesFit fs d) (name : List UInt8) (node : VfsNode)
    (hlook : fat32FileLookup fs d cwd name = some (some node)) (hfile : node.flags = vfsFile)
    (offset size : UInt32) :
    HonoursSize fs d node offset.toNat size.toNat ↔
      node.size ≤ offset.toNat ∨ offset.toNat + size.toNat < 2 ^ 32 ∨
        ∃ l, Chain fs d node.inode l ∧ node.size = l.length * bytesPerCluster fs := by
  have hg := hw.geometry
  have hsize : size.toNat < 2 ^ 32 := size.toNat_lt
  obtain ⟨hnode, l, hl, hfits⟩ := fileLookup_file hw hfit hlook hfile
  by_cases hoff : node.size ≤ offset.toNat
  · rw [honoursSize_iff hl (vfsRead_behind hoff)]
    exact iff_of_true (by omega) (.inl hoff)
  -- a file with a byte behind the offset has clusters
  have hchain : Chain fs d node.inode l := by
    rcases hl with ⟨-, rfl⟩ | hl
    · rw [List.length_nil, Nat.zero_mul] at hfits
      omega
    · exact hl
  by_cases hsum : offset.toNat + size.toNat < 2 ^ 32
  · rw [honoursSize_iff hl (vfsRead_cut hg hchain hfits (by omega) hsum)]
    exact iff_of_true rfl (.inr (.inl hsum))
  · rw [honoursSize_iff hl
      (vfsRead_wrapped hg hchain hfits (by omega) hsize hnode (by omega))]
    constructor
    · intro hcount
      exact .inr (.inr ⟨l, hchain, by omega⟩)
    · rintro (h | h | ⟨k, hk, hfull⟩)
      · exact absurd h hoff
      · exact absurd h hsum
      · rw [hk.unique hchain] at hfull
        rw [hfull]

theorem honours_size_iff_shortFile : HonoursSize tinyVolume shortFile shortNode 1 4 ↔
    shortNode.size ≤ 1 ∨ 1 + 4 < 2 ^ 32 ∨ ∃ l, Chain tinyVolume shortFile shortNode.inode l ∧
      shortNode.size = l.length * bytesPerCluster tinyVolume :=
  honours_size_iff tinyVolume shortFile 2 shortFile_wellFormed shortFile_filesFit [0x41] shortNode
    shortFile_lookup rfl 1 4

/-- All but the first of ten bytes are asked for, and 511 bytes are stored. -/
theorem shortFile_overrun : ¬∀ (fs : Fat32) (d : Bytes) (cwd : ℕ), WellFormed fs dotEntry d cwd →
    FilesFit fs d → ∀ (name : List UInt8) (node : VfsNode),
      fat32FileLookup fs d cwd name = some (some node) → node.flags = vfsFile →
      ∀ offset size : UInt32, HonoursSize fs d node offset.toNat size.toNat := by
  intro h
  have hread := h tinyVolume shortFile 2 shortFile_wellFormed shortFile_filesFit [0x41] shortNode
    shortFile_lookup rfl 1 0xFFFFFFFF
  have hover : fat32VfsRead tinyVolume shortFile shortNode 1 0xFFFFFFFF =
      some ((List.range (min 0xFFFFFFFF ([3].length * bytesPerCluster tinyVolume - 1))).map
        fun i => chainByte tinyVolume shortFile [3] (1 + i)) :=
    vfsRead_wrapped shortFile_wellFormed.geometry shortFile_chain (by decide) (by decide)
      (by decide) (by decide) (by decide)
  have hcount := (honoursSize_iff (.inr shortFile_chain) hover).mp hread
  exact absurd hcount (by decide)

end Fat32VfsRead
