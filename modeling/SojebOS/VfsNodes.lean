import SojebOS.KernelHeapFreeing
import SojebOS.NodeFiles
import SojebOS.WalkCycles
import SojebOS.Fat32DirectoryWalks

/-!
# Open nodes

`vfs_open` takes a node from the kernel heap and lets the driver fill it in, and `vfs_close`
gives it back. The fields of the node lie in the payload of its block, so that opening and
closing change the block list by one allocation and undo it.
-/
namespace VfsNodes

open ByteMemory MachineWord FirstFit FirstFitUsed KernelHeap KernelHeapRefinement KernelHeapOutcomes
open KernelHeapFreeing WalkCycles WhileLoop
open Fat32Disk Fat32Directory Fat32Files Fat32DirectoryWalks

/-- What the kernel keeps: the heap, physical memory with its frames, the disk, and the
current directory. -/
structure System where
  heap : Heap
  paging : Paging.State
  disk : Bytes
  currentDirCluster : ℕ

structure DriverHooks where
  fat32VfsRead : ℕ
  fat32VfsClose : ℕ
  read_pos : 0 < fat32VfsRead
  read_lt : fat32VfsRead < 2 ^ 32

abbrev vfsNodeSize : ℕ := 284

/-- `fat32_file_lookup` assigns the fields of the node at `p`; `priv_data` stays. -/
def fillNode (hooks : DriverHooks) (m : Bytes) (p : ℕ) (node : VfsNode) : Bytes :=
  let m := copyIn m p 255 fun i => node.name.getD i 0
  let m := store32 m (p + 260) node.size
  let m := store32 m (p + 264) node.inode
  let m := store32 m (p + 256) node.flags
  let m := store32 m (p + 268) hooks.fat32VfsRead
  let m := store32 m (p + 272) 0
  store32 m (p + 276) hooks.fat32VfsClose

/-- The node at `p` as `vfs_read` finds it; the only function in `read` is the driver's. -/
def nodeAt (m : Bytes) (p : ℕ) : VfsNode where
  name := (List.range 255).map fun i => m (p + i)
  flags := load32 m (p + 256)
  size := load32 m (p + 260)
  inode := load32 m (p + 264)
  read := if load32 m (p + 268) = 0 then none else some .fat32VfsRead

/-- The system after the call and the node, 0 for `NULL`. -/
def vfsOpen (hooks : DriverHooks) (fs : Fat32) (s : System) (filename : List UInt8) :
    Option (System × ℕ) := do
  let (heap, node) ← kmalloc s.heap vfsNodeSize
  if node = 0 then return ({ s with heap }, 0)
  let found ← fat32FileLookup fs s.disk s.currentDirCluster filename
  match found with
  | none =>
    let heap ← kfree heap node
    return ({ s with heap }, 0)
  | some found =>
    return ({ s with heap := { heap with mem := fillNode hooks heap.mem node found } }, node)

/-- `fat32_vfs_close` has nothing to clean up. -/
def fat32VfsClose (s : System) (_ : ℕ) : System := s

def vfsClose (s : System) (node : ℕ) : Option System :=
  if node = 0 then some s
  else
    let s := if load32 s.heap.mem (node + 276) ≠ 0 then fat32VfsClose s node else s
    (kfree s.heap node).map fun heap => { s with heap }

/-- Nothing but the bytes of free memory in the heap differs. -/
structure NoTrace (s t : System) : Prop where
  blocks : ∃ bs, BlockList s.heap bs ∧ BlockList t.heap bs
  paging : t.paging = s.paging
  disk : t.disk = s.disk
  currentDirCluster : t.currentDirCluster = s.currentDirCluster

/-- The node at `p` is all that was allocated since the heap had the blocks `bs`. -/
def OpenedFrom (lo hi : ℕ) (bs : List Block) (heap : Heap) (p : ℕ) : Prop :=
  ∃ cs, ∃ c ∈ cs, allocate 12 8 (align vfsNodeSize) bs = some (cs, c.addr) ∧
    Represents lo hi heap cs ∧ vfsNodeSize ≤ c.size ∧ p = c.addr + 12 ∧ p < 2 ^ 32

section Nodes

variable {hooks : DriverHooks} {fs : Fat32} {s t : System} {m m' : Bytes} {p x : ℕ}
variable {node : VfsNode} {lo hi : ℕ} {heap : Heap} {bs : List Block}

theorem fillNode_outside (h : x < p ∨ p + vfsNodeSize ≤ x) :
    fillNode hooks m p node x = m x := by
  have hx : x < p ∨ p + 284 ≤ x := h
  unfold fillNode
  rw [store32_outside (by omega), store32_outside (by omega), store32_outside (by omega),
    store32_outside (by omega), store32_outside (by omega), store32_outside (by omega),
    copyIn_outside (by omega)]

theorem nodeAt_fillNode (hname : node.name.length = 255) (hflags : node.flags < 2 ^ 32)
    (hsize : node.size < 2 ^ 32) (hinode : node.inode < 2 ^ 32)
    (hhook : node.read = some .fat32VfsRead) :
    nodeAt (fillNode hooks m p node) p = node := by
  have hbytes : ∀ i < 255, fillNode hooks m p node (p + i) = node.name.getD i 0 := by
    intro i hi
    unfold fillNode
    rw [store32_outside (by omega), store32_outside (by omega), store32_outside (by omega),
      store32_outside (by omega), store32_outside (by omega), store32_outside (by omega),
      copyIn_inside (by omega), Nat.add_sub_cancel_left]
  have hlist : (List.range 255).map (fun i => fillNode hooks m p node (p + i)) = node.name := by
    apply List.ext_getElem
    · rw [List.length_map, List.length_range, hname]
    · intro i hi hi'
      rw [List.getElem_map, List.getElem_range, hbytes i (by omega), List.getD_eq_getElem _ _ hi']
  obtain ⟨name, flags, size, inode, read⟩ := node
  simp only at hflags hsize hinode hhook hlist
  have hread := hooks.read_pos.ne'
  have hlt := hooks.read_lt
  rw [nodeAt, hlist]
  simp (disch := omega) only [fillNode, load32_store32_apart, load32_store32, hread, if_false,
    hhook]

theorem OpenedFrom.write (h : OpenedFrom lo hi bs heap p)
    (hm : ∀ x, x < p ∨ p + vfsNodeSize ≤ x → m' x = heap.mem x) :
    OpenedFrom lo hi bs { heap with mem := m' } p := by
  obtain ⟨cs, c, hc, halloc, hrep, hsize, rfl, hlt⟩ := h
  have hlist : Listed m' heap.freeListHead cs 0 := by
    apply hrep.listed.payload hrep.arena.tiles hc
    intro x hx
    exact hm x (by omega)
  exact ⟨cs, c, hc, halloc, ⟨hlist, hrep.arena⟩, hsize, rfl, hlt⟩

theorem OpenedFrom.free (hr : HeapRange lo hi) (hbs : Arena 12 lo hi bs)
    (h : OpenedFrom lo hi bs heap p) :
    ∃ heap', kfree heap p = some heap' ∧ BlockList heap' bs := by
  obtain ⟨cs, c, hc, halloc, hrep, -, rfl, hlt⟩ := h
  obtain ⟨heap', hfree, hrep'⟩ := kfree_refines hr hrep hc hlt
  rw [release_allocate (by norm_num) hbs halloc] at hrep'
  exact ⟨heap', hfree, hrep'.listed⟩

/-- A node is allocated, or there is no memory; it is too large for a payload at 2^32. -/
theorem kmalloc_node (hr : HeapRange lo hi) (h : Represents lo hi heap bs) :
    kmalloc heap vfsNodeSize = some (heap, 0) ∨
      ∃ heap' p, kmalloc heap vfsNodeSize = some (heap', p) ∧ p ≠ 0 ∧
        OpenedFrom lo hi bs heap' p := by
  have halign : align vfsNodeSize = 288 := by decide
  have hout := kmalloc_outcome hr h vfsNodeSize
  generalize kmalloc heap vfsNodeSize = result at hout
  cases hout with
  | full => exact Or.inl rfl
  | wrapped halloc htop hrep =>
    obtain ⟨⟨size, hsize, hmem⟩, -⟩ := allocate_served halloc
    have hbound := (block_bounds hr hrep.arena.tiles hmem).2.2.1
    simp only at hbound
    omega
  | @served cs c halloc hrep hc _ hsize hlt =>
    refine Or.inr ⟨_, _, rfl, by omega, cs, c, hc, halloc, hrep, ?_, rfl, hlt⟩
    norm_num
    omega

theorem vfsClose_opened (hr : HeapRange lo hi) (hbs : Arena 12 lo hi bs)
    (h : OpenedFrom lo hi bs t.heap p) (hp : p ≠ 0) :
    ∃ heap', vfsClose t p = some { t with heap := heap' } ∧ BlockList heap' bs := by
  obtain ⟨heap', hfree, hlist⟩ := h.free hr hbs
  refine ⟨heap', ?_, hlist⟩
  rw [vfsClose, if_neg hp]
  simp only [fat32VfsClose, ite_self, hfree, Option.map_some]

theorem walkDirectory_visited {ρ : Type} {visit : ℕ → ℕ → Option ρ} {d : Bytes} {cluster : ℕ}
    {r : ρ} (h : walkDirectory fs d cluster visit = some (some r)) :
    ∃ sector i, visit sector i = some r := by
  have hpost : ∀ q, some r = some q → ∃ sector i, visit sector i = some q := by
    refine run_invariant (fun _ => True) (fun o => ∀ q, o = some q → ∃ sector i,
      visit sector i = some q) (fun _ _ _ _ => trivial) ?_ trivial h
    intro c o _ hleave q hq
    subst hq
    unfold LinkedChain.walkBody at hleave
    split at hleave
    · cases hleave
    · split at hleave
      · rename_i found hscan
        cases hleave
        obtain ⟨sector, -, hsector⟩ := List.exists_of_findSome?_eq_some hscan
        obtain ⟨i, -, hi⟩ := List.exists_of_findSome?_eq_some hsector
        exact ⟨_, i, hi⟩
      · cases hleave
  exact hpost r rfl

theorem fileLookup_fields {d : Bytes} {cwd : ℕ} {filename : List UInt8}
    (h : fat32FileLookup fs d cwd filename = some (some node)) :
    node.name.length = 255 ∧ node.flags < 2 ^ 32 ∧ node.size < 2 ^ 32 ∧ node.inode < 2 ^ 32 ∧
      node.read = some .fat32VfsRead := by
  obtain ⟨found, hfound, hnode⟩ := Option.map_eq_some_iff.mp h
  obtain ⟨entry, rfl, rfl⟩ := Option.map_eq_some_iff.mp hnode
  obtain ⟨o, hwalk, hjoin⟩ := Option.map_eq_some_iff.mp hfound
  obtain ⟨found, rfl⟩ : ∃ found, o = some found := by
    cases o with
    | none => cases hjoin
    | some found => exact ⟨found, rfl⟩
  obtain rfl : found = some entry := hjoin
  obtain ⟨sector, i, hvisit⟩ := walkDirectory_visited hwalk
  have hentry : entry = readEntry (diskRead d sector) (32 * i) := by
    simp only [findVisit] at hvisit
    split_ifs at hvisit
    · cases hvisit
    · exact (Option.some.inj (Option.some.inj hvisit)).symm
  refine ⟨?_, ?_, ?_, ?_, rfl⟩
  · simp only [strncpy, List.length_append, List.length_replicate, List.length_take]
    omega
  · split <;> norm_num [vfsFile, vfsDirectory]
  · rw [hentry]
    exact load32_lt _ _
  · have hhigh : entry.firstClusterHigh < 2 ^ 16 := by
      rw [hentry]
      exact load16_lt _ _
    have hlow : entry.firstClusterLow < 2 ^ 16 := by
      rw [hentry]
      exact load16_lt _ _
    simp only [Fat32DirEntry.firstCluster]
    rw [shiftLeft_or_eq_add hlow]
    omega

theorem fileLookup_ends {d : Bytes} {cwd : ℕ} (h : Acyclic (fat32NextCluster fs d) offChain)
    (filename : List UInt8) : ∃ found, fat32FileLookup fs d cwd filename = some found := by
  cases hwalk : walkDirectory fs d cwd (findVisit d (formatFilename filename)) with
  | none => exact absurd ((walk_none_iff_goesRound le_rfl).mp hwalk) h.not_circles
  | some found =>
    rw [fat32FileLookup, fat32FindFile, hwalk]
    exact ⟨_, rfl⟩

/-- Opening a file fails and leaves no trace, or takes a node for it and nothing else. -/
theorem vfsOpen_spec (hr : HeapRange lo hi) (h : Represents lo hi s.heap bs)
    (hacyclic : Acyclic (fat32NextCluster fs s.disk) offChain) (hooks : DriverHooks)
    (filename : List UInt8) :
    (∃ t, vfsOpen hooks fs s filename = some (t, 0) ∧ NoTrace s t) ∨
      ∃ found heap p, fat32FileLookup fs s.disk s.currentDirCluster filename =
          some (some found) ∧ p ≠ 0 ∧ OpenedFrom lo hi bs heap p ∧
        vfsOpen hooks fs s filename =
          some ({ s with heap := { heap with mem := fillNode hooks heap.mem p found } }, p) := by
  obtain ⟨found, hfound⟩ : ∃ found,
      fat32FileLookup fs s.disk s.currentDirCluster filename = some found :=
    fileLookup_ends hacyclic filename
  rcases kmalloc_node hr h with hfull | ⟨heap, p, halloc, hp, hopened⟩
  · refine Or.inl ⟨s, ?_, ⟨bs, h.listed, h.listed⟩, rfl, rfl, rfl⟩
    simp only [vfsOpen, hfull, Option.bind_eq_bind, Option.bind_some, if_true]
    rfl
  · cases found with
    | none =>
      obtain ⟨heap', hfree, hlist⟩ := hopened.free hr h.arena
      refine Or.inl ⟨{ s with heap := heap' }, ?_, ⟨bs, h.listed, hlist⟩, rfl, rfl, rfl⟩
      simp only [vfsOpen, halloc, hp, hfound, hfree, Option.bind_eq_bind, Option.bind_some,
        if_false]
      rfl
    | some found =>
      refine Or.inr ⟨found, heap, p, hfound, hp, hopened, ?_⟩
      simp only [vfsOpen, halloc, hp, hfound, Option.bind_eq_bind, Option.bind_some, if_false]
      rfl

end Nodes

end VfsNodes
