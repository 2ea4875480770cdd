import SojebOS.HashTableContents
import SojebOS.HashTableOperations

/-!
# Runs of a table

A table between the rest of the kernel: any operations on it, and any calls on the heap and writes
that the others may do. As long as no key is without its copy, the chains in memory are those of the
table of values.
-/
namespace HashTableRuns

open ByteMemory MachineWord WhileLoop FirstFit FirstFitUsed KernelHeap KernelHeapRefinement
  KernelHeapInvariant KernelHeapFrame KernelHeapFreeing KernelHeapClients CStrings HashTableMemory
  HashTableChains HashTableOperations HashTableContents
open HashTable (CString HashEntry Op)

/-- The heap, the table, and the pointers that the rest of the kernel holds. -/
structure TableState where
  heap : Heap
  table : ℕ
  others : Finset ℕ

def Present (n : ℕ) (s : TableState) (text : CString) : Prop :=
  ∃ array nodes, TableAt s.heap.mem s.table array n nodes ∧
    ∃ e ∈ nodes (HashTable.hashFunction text % n), e.entry.key = text

def EntryFits (heap : Heap) : Prop :=
  ∃ bs cs a, BlockList heap bs ∧ allocate 12 8 (align 12) bs = some (cs, a)

/-- The allocator has a block for an entry, and then one for the copy of the key. -/
def BothFit (heap : Heap) (text : CString) : Prop :=
  ∃ bs cs ds a c, BlockList heap bs ∧ allocate 12 8 (align 12) bs = some (cs, a) ∧
    allocate 12 8 (align (text.val.length + 1)) cs = some (ds, c)

def Served (n : ℕ) (s : TableState) (text : CString) : Prop :=
  Present n s text ∨ BothFit s.heap text

/-- From the creation of a table of `n` buckets on a reachable heap. The operations that had the
blocks they need are recorded; of the other insertions only those that `Dropped` allows occur. -/
inductive Run (start size n : ℕ) (Dropped : TableState → CString → Prop) :
    TableState → List Op → Prop where
  | create {s : KernelHeap.State} {heap : Heap} {table : ℕ} : Reachable start size s →
      hashTableCreate s.heap n = some (heap, table) → table ≠ 0 →
      Run start size n Dropped ⟨heap, table, s.live⟩ []
  | insert {s : TableState} {ops : List Op} {key : ℕ} {text : CString} {value : UInt32}
      {heap : Heap} : Run start size n Dropped s ops → KeyAt start (start + size) s.heap key text →
      Served n s text → hashTableInsert s.heap s.table key value.toNat = some heap →
      Run start size n Dropped { s with heap := heap } (ops ++ [.insert text value])
  | drop {s : TableState} {ops : List Op} {key : ℕ} {text : CString} {value : UInt32}
      {heap : Heap} : Run start size n Dropped s ops → KeyAt start (start + size) s.heap key text →
      ¬Served n s text → Dropped s text →
      hashTableInsert s.heap s.table key value.toNat = some heap →
      Run start size n Dropped { s with heap := heap } ops
  | remove {s : TableState} {ops : List Op} {key : ℕ} {text : CString} {heap : Heap} :
      Run start size n Dropped s ops → KeyAt start (start + size) s.heap key text →
      hashTableRemove s.heap s.table key = some heap →
      Run start size n Dropped { s with heap := heap } (ops ++ [.remove text])
  | call {s : TableState} {ops : List Op} {c : Call} {t : KernelHeap.State} :
      Run start size n Dropped s ops → Permitted ⟨s.heap, s.others⟩ c →
      perform ⟨s.heap, s.others⟩ c = some t → Run start size n Dropped ⟨t.heap, s.table, t.live⟩ ops
  | write {s : TableState} {ops : List Op} {m : Bytes} : Run start size n Dropped s ops →
      (∀ x, m x ≠ s.heap.mem x → OthersByte start (start + size) s.heap s.others x) →
      Run start size n Dropped { s with heap := { s.heap with mem := m } } ops

/-- The entries of the chains, bucket by bucket, are those of the table of values. -/
def SameChains (n : ℕ) (nodes : ℕ → List Node) (t : HashTable.Table) : Prop :=
  ∀ i < n, (nodes i).map Node.entry = t.buckets i

def InUse (heap : Heap) (p : ℕ) : Prop := ∃ bs, BlockList heap bs ∧ ∃ a, Used bs a ∧ p = a + 12

/-- How a removal of the key goes. An entry that is removed is the only one under the key, and of
the blocks in use its own and that of its key are released. -/
inductive RemoveOutcome (heap : Heap) (table array n : ℕ) (nodes : ℕ → List Node)
    (text : CString) : Option Heap → Prop where
  | absent : (∀ e ∈ nodes (HashTable.hashFunction text % n), e.entry.key ≠ text) →
      RemoveOutcome heap table array n nodes text (some heap)
  | removed {heap' : Heap} {bs : List Block} {pre post : List Node} {e : Node} :
      nodes (HashTable.hashFunction text % n) = pre ++ e :: post → e.entry.key = text →
      (∀ f ∈ pre ++ post, f.entry.key ≠ text) → BlockList heap bs →
      BlockList heap' (release 12 (e.addr - 12) (release 12 (e.copy - 12) bs)) →
      (∀ p, InUse heap' p ↔ InUse heap p ∧ p ≠ e.addr ∧ p ≠ e.copy) →
      TableAt heap'.mem table array n
        (Function.update nodes (HashTable.hashFunction text % n) (pre ++ post)) →
      RemoveOutcome heap table array n nodes text (some heap')

theorem inUse_iff {heap : Heap} {bs : List Block} (h : BlockList heap bs) (p : ℕ) :
    InUse heap p ↔ ∃ a, Used bs a ∧ p = a + 12 := by
  constructor
  · rintro ⟨cs, hcs, hused⟩
    rwa [listed_unique h hcs]
  · exact fun hused => ⟨bs, h, hused⟩

section Steps

variable {lo hi table array n key i : ℕ} {heap : Heap} {bs : List Block} {others : Finset ℕ}
  {nodes : ℕ → List Node} {text : CString} {t : HashTable.Table} {e : Node}
  {pre post : List Node}

theorem sameChains_update (h : SameChains n nodes t) {es : List Node} {chain : List HashEntry}
    (hes : es.map Node.entry = chain) : SameChains n (Function.update nodes i es)
      { t with buckets := Function.update t.buckets i chain } := by
  intro j hj
  dsimp only
  by_cases hji : j = i
  · rw [hji, Function.update_self, Function.update_self]
    exact hes
  · rw [Function.update_of_ne hji, Function.update_of_ne hji]
    exact h j hj

theorem map_entry_split {pre post : List Node} (hnodes : nodes i = pre ++ e :: post)
    (hchain : (nodes i).map Node.entry = t.buckets i) :
    t.buckets i = pre.map Node.entry ++ e.entry :: post.map Node.entry := by
  rw [← hchain, hnodes, List.map_append, List.map_cons]

theorem entry_keys {es : List Node} (h : ∀ f ∈ es, f.entry.key ≠ text) :
    ∀ f ∈ es.map Node.entry, f.key ≠ text := by
  intro f hf
  obtain ⟨g, hg, rfl⟩ := List.mem_map.mp hf
  exact h g hg

theorem insert_step (hr : HeapRange lo hi) (hn : 0 < n)
    (h : Holds lo hi heap bs others table array n nodes) (hkey : KeyAt lo hi heap key text)
    (hserved : Served n ⟨heap, table, others⟩ text) (hsame : SameChains n nodes t)
    (hsize : t.size = n) (value : UInt32) :
    ∃ heap' cs nodes', hashTableInsert heap table key value.toNat = some heap' ∧
      Holds lo hi heap' cs others table array n nodes' ∧
      SameChains n nodes' (HashTable.hashTableInsert t text value) := by
  have hi' : HashTable.hashFunction text % n < n := Nat.mod_lt _ hn
  generalize hindex : HashTable.hashFunction text % n = i at hi'
  have hchain := hsame i hi'
  rw [HashTable.hashTableInsert, hsize, hindex]
  rcases first_or_none (fun e : Node => e.entry.key = text) (nodes i) with
    hother | ⟨pre, e, post, hnodes, he, hpre⟩
  · rcases hserved with ⟨array', nodes', htable, e, he, hkeyEq⟩ | ⟨bs', cs, ds, a, c, hlist, ha, hc⟩
    · rw [hindex, ← tableAt_unique h.tableAt htable i hi'] at he
      exact absurd hkeyEq (hother e he)
    · obtain rfl : bs' = bs := listed_unique hlist h.owns.exact.represents.listed
      obtain ⟨heap', hinsert, hholds⟩ := h.insert_new hr hn hkey hindex hother value ha hc
      refine ⟨heap', _, _, hinsert, hholds, sameChains_update hsame ?_⟩
      rw [HashTable.insertEntry, ← hchain, updateEntry_absent (entry_keys hother)]
      rfl
  · have hset := h.set_value hr hi' hnodes value
    refine ⟨_, _, _, h.insert_present hr hn hkey hindex hnodes hpre he value.toNat, hset,
      sameChains_update hsame ?_⟩
    rw [HashTable.insertEntry, map_entry_split hnodes hchain,
      updateEntry_split (entry_keys hpre) he, List.map_append, List.map_cons]
    rfl

theorem remove_step (hr : HeapRange lo hi) (hn : 0 < n)
    (h : Holds lo hi heap bs others table array n nodes) (hkey : KeyAt lo hi heap key text)
    (hsame : SameChains n nodes t) (hsize : t.size = n) (hsound : HashTable.Sound t) :
    ∃ heap' cs nodes', hashTableRemove heap table key = some heap' ∧
      Holds lo hi heap' cs others table array n nodes' ∧
      SameChains n nodes' (HashTable.hashTableRemove t text) ∧
      RemoveOutcome heap table array n nodes text (some heap') := by
  have hi' : HashTable.hashFunction text % n < n := Nat.mod_lt _ hn
  generalize hindex : HashTable.hashFunction text % n = i at hi'
  have hchain := hsame i hi'
  rw [HashTable.hashTableRemove, hsize, hindex]
  rcases first_or_none (fun e : Node => e.entry.key = text) (nodes i) with
    hother | ⟨pre, e, post, hnodes, he, hpre⟩
  · refine ⟨heap, bs, nodes, h.remove_absent hr hn hkey hindex hother, h, ?_,
      .absent (hindex ▸ hother)⟩
    rw [← hchain, unlinkEntry_absent (entry_keys hother), hchain, Function.update_eq_self]
    exact hsame
  · have hbucket := map_entry_split hnodes hchain
    have hpost : ∀ f ∈ post, f.entry.key ≠ text := by
      have hdistinct := hsound i
      rw [hbucket] at hdistinct
      exact fun f hf => he ▸ Distinct.split hdistinct f.entry (List.mem_map_of_mem hf)
    obtain ⟨heap', hremove, hholds⟩ := h.remove_present hr hn hkey hindex hnodes hpre he
    refine ⟨heap', _, _, hremove, hholds, sameChains_update hsame ?_, ?_⟩
    · rw [hbucket, unlinkEntry_split (entry_keys hpre) he, List.map_append]
    · subst hindex
      refine .removed hnodes he (fun f hf => ?_) h.owns.exact.represents.listed
        hholds.owns.exact.represents.listed (fun p => ?_) hholds.tableAt
      · exact (List.mem_append.mp hf).elim (hpre f) (hpost f)
      · have hpos := h.pointers_pos hi' (e := e) (by simp [hnodes])
        rw [inUse_iff hholds.owns.exact.represents.listed,
          inUse_iff h.owns.exact.represents.listed]
        simp only [used_release]
        constructor
        · rintro ⟨a, ⟨⟨hu, hcopy⟩, hentry⟩, rfl⟩
          exact ⟨⟨a, hu, rfl⟩, by omega, by omega⟩
        · rintro ⟨⟨a, hu, rfl⟩, hentry, hcopy⟩
          exact ⟨a, ⟨⟨hu, by omega⟩, by omega⟩, rfl⟩

theorem drop_step (hr : HeapRange lo hi) (hn : 0 < n)
    (h : Holds lo hi heap bs others table array n nodes) (hkey : KeyAt lo hi heap key text)
    (habsent : ¬Present n ⟨heap, table, others⟩ text) (hfull : ¬EntryFits heap) (value : ℕ) :
    hashTableInsert heap table key value = some heap := by
  have hother : ∀ f ∈ nodes (HashTable.hashFunction text % n), f.entry.key ≠ text :=
    fun f hf he => habsent ⟨array, nodes, h.tableAt, f, hf, he⟩
  refine h.insert_refused hr hn hkey rfl hother value ?_
  cases ha : allocate 12 8 (align 12) bs with
  | none => rfl
  | some taken => exact absurd ⟨bs, _, _, h.owns.exact.represents.listed, ha⟩ hfull

end Steps

section Runs

variable {start size n : ℕ} {Dropped : TableState → CString → Prop} {s : TableState} {ops : List Op}

theorem create_range (hs : blockSize ≤ size) (hs' : size + alignment < 2 ^ 32)
    (he : start + size ≤ 2 ^ 32) {s : KernelHeap.State} (h : Reachable start size s) {heap : Heap}
    {table : ℕ} (hcreate : hashTableCreate s.heap n = some (heap, table)) (htable : table ≠ 0) :
    HeapRange start (start + size) ∧ ∃ bs, Exact start (start + size) s bs := by
  have hnull : kmalloc s.heap 8 ≠ some (s.heap, 0) := by
    intro hk
    rw [hashTableCreate, hk] at hcreate
    cases hcreate
    exact htable rfl
  rcases reachable_null_or_blocks hs hs' he h with ⟨hhead, -⟩ | ⟨hr, bs, hinv⟩
  · exact absurd (kmalloc_at_null hhead 8) hnull
  · refine ⟨hr, reachable_exact hr hs ?_ h⟩
    -- a heap of one header has no block of 8 bytes
    cases ha : allocate 12 8 (align 8) bs with
    | none => exact absurd ((kmalloc_refines hr hinv.represents 8).1 ha) hnull
    | some taken =>
      obtain ⟨⟨b, hb, hserved⟩, -⟩ := allocate_served ha
      have hbound := (allocate_arena hinv.represents.arena ha).tiles.mem_bounds hserved
      have halign : align 8 = 8 := by decide
      simp only at hbound
      omega

structure Good (start size n : ℕ) (s : TableState) (ops : List Op) : Prop where
  range : HeapRange start (start + size)
  holds : ∃ bs array nodes, Holds start (start + size) s.heap bs s.others s.table array n nodes ∧
    SameChains n nodes (HashTable.runOps (HashTable.hashTableCreate n) ops)

theorem run_good (hs : blockSize ≤ size) (hs' : size + alignment < 2 ^ 32)
    (he : start + size ≤ 2 ^ 32) (hn : 0 < n) (hn' : n ≤ 2 ^ 30 - 2)
    (hdrop : ∀ s text, Dropped s text → ¬EntryFits s.heap)
    (h : Run start size n Dropped s ops) : Good start size n s ops := by
  induction h with
  | create hreach hcreate htable =>
    obtain ⟨hr, bs, hexact⟩ := create_range hs hs' he hreach hcreate htable
    obtain ⟨ds, array, hholds⟩ := create_holds hr hexact hn' hcreate htable
    exact ⟨hr, ds, array, _, hholds, fun i _ => rfl⟩
  | @insert s ops key text value heap _ hkey hserved hinsert ih =>
    obtain ⟨hr, bs, array, nodes, hholds, hsame⟩ := ih
    have hsize := (runOps_contents n ops).size_eq
    obtain ⟨heap', cs, nodes', hstep, hholds', hsame'⟩ :=
      insert_step hr hn hholds hkey hserved hsame hsize value
    cases hstep.symm.trans hinsert
    refine ⟨hr, cs, array, nodes', hholds', ?_⟩
    rw [runOps_append]
    exact hsame'
  | @drop s ops key text value heap _ hkey hnot hd hinsert ih =>
    obtain ⟨hr, bs, array, nodes, hholds, hsame⟩ := ih
    have hstep := drop_step hr hn hholds hkey (fun hp => hnot (.inl hp)) (hdrop s text hd)
      value.toNat
    cases hstep.symm.trans hinsert
    exact ⟨hr, bs, array, nodes, hholds, hsame⟩
  | @remove s ops key text heap _ hkey hremove ih =>
    obtain ⟨hr, bs, array, nodes, hholds, hsame⟩ := ih
    have hcontents := runOps_contents n ops
    obtain ⟨heap', cs, nodes', hstep, hholds', hsame', -⟩ :=
      remove_step hr hn hholds hkey hsame hcontents.size_eq hcontents.sound
    cases hstep.symm.trans hremove
    refine ⟨hr, cs, array, nodes', hholds', ?_⟩
    rw [runOps_append]
    exact hsame'
  | call _ hc hperform ih =>
    obtain ⟨hr, bs, array, nodes, hholds, hsame⟩ := ih
    obtain ⟨cs, howns, hbytes⟩ := hholds.owns.call hr hc hperform
    exact ⟨hr, cs, array, nodes, ⟨howns, hholds.tableAt.congr hbytes⟩, hsame⟩
  | write _ hm ih =>
    obtain ⟨hr, bs, array, nodes, hholds, hsame⟩ := ih
    obtain ⟨howns, hbytes⟩ := hholds.owns.others_write hr hm
    exact ⟨hr, bs, array, nodes, ⟨howns, hholds.tableAt.congr hbytes⟩, hsame⟩

/-- `"init"` under the value 1, in a table of 101 buckets, as in the usage note of the source. -/
theorem init_run (Dropped : TableState → CString → Prop) : ∃ s,
    Run 0x100000 0x400000 101 Dropped s [.insert ⟨[105, 110, 105, 116], by decide⟩ 1] := by
  have hr : HeapRange 0x100000 (0x100000 + 0x400000) := ⟨by norm_num, by norm_num, by norm_num⟩
  have hfirst : allocate 12 8 (align 8) [⟨0x100000, 0x400000 - 12, true⟩] =
      some ([⟨0x100000, 8, false⟩, ⟨0x100014, 0x3FFFE0, true⟩], 0x100000) := by decide
  have hsecond : allocate 12 8 (align (4 * 101))
      [⟨0x100000, 8, false⟩, ⟨0x100014, 0x3FFFE0, true⟩] =
      some ([⟨0x100000, 8, false⟩, ⟨0x100014, 408, false⟩, ⟨0x1001B8, 0x3FFE3C, true⟩],
        0x100014) := by decide
  obtain ⟨heap, hcreate, hholds⟩ := create_served hr
    (kheapInit_exact (fun _ => 0) hr (by norm_num) (by norm_num)) (by norm_num) hfirst hsecond
  have hcreated : Run 0x100000 0x400000 101 Dropped ⟨heap, 0x10000C, ∅⟩ [] :=
    .create (.init fun _ => 0) hcreate (by norm_num)
  -- the string is written at 1
  let m : Bytes := fun x => if x < 6 then [0, 105, 110, 105, 116, 0].getD x 0 else heap.mem x
  obtain ⟨hwrite, hholds', hkey⟩ := hholds.text_below hr m 1
    ⟨[105, 110, 105, 116], by decide⟩ (fun x hx => if_neg (by omega)) (by norm_num)
    ⟨rfl, rfl, rfl, rfl, rfl, trivial⟩ (by decide)
  have hlist := hholds'.owns.exact.represents.listed
  have hserved : Served 101 ⟨{ heap with mem := m }, 0x10000C, ∅⟩
      ⟨[105, 110, 105, 116], by decide⟩ := by
    refine .inr ⟨_, [⟨0x100000, 8, false⟩, ⟨0x100014, 408, false⟩, ⟨0x1001B8, 16, false⟩,
      ⟨0x1001D4, 0x3FFE20, true⟩], _, 0x1001B8, 0x1001D4, hlist, by decide, rfl⟩
  obtain ⟨heap', -, -, hinsert, -⟩ := insert_step (t := HashTable.hashTableCreate 101) hr
    (by norm_num) hholds' hkey hserved (fun i _ => rfl) rfl 1
  exact ⟨_, (hcreated.write hwrite).insert hkey hserved hinsert⟩

end Runs

end HashTableRuns
