import SojebOS.HashTableRuns

/-!
# The bucket invariant

In every run the entries are in the buckets of their keys, one for each key that is bound, and a
removal takes out one entry and nothing else. `hash_table_create` does not look at the product of
`size` and the size of a pointer: where it does not fit in a word, the array is too short, and the
loop over the buckets overwrites the table.
-/
namespace HashTableBuckets

open ByteMemory MachineWord FirstFit KernelHeap KernelHeapRefinement KernelHeapFreeing
  KernelHeapClients HashTableMemory HashTableChains HashTableOperations HashTableContents
  HashTableRuns
open HashTable (CString Op)

structure BucketInvariant (start size n : ℕ) (s : TableState) (ops : List Op) (array : ℕ)
    (nodes : ℕ → List Node) : Prop where
  chains : TableAt s.heap.mem s.table array n nodes
  placed : ∀ i < n, ∀ e ∈ nodes i, HashTable.hashFunction e.entry.key % n = i
  distinct : (((List.range n).flatMap nodes).map fun e => e.entry.key).Nodup
  contents : ∀ key value,
    (∃ i < n, ∃ e ∈ nodes i, e.entry = ⟨key, value⟩) ↔ latest key ops = some value
  insertion : ∀ key text (value : UInt32), KeyAt start (start + size) s.heap key text →
    Served n s text → ∃ heap, hashTableInsert s.heap s.table key value.toNat = some heap
  removal : ∀ key text, KeyAt start (start + size) s.heap key text →
    RemoveOutcome s.heap s.table array n nodes text (hashTableRemove s.heap s.table key)

section Runs

variable {start size n array : ℕ} {s : TableState} {ops : List Op} {nodes : ℕ → List Node}

theorem good_invariant (hn : 0 < n) (h : Good start size n s ops) :
    ∃ array nodes, BucketInvariant start size n s ops array nodes := by
  obtain ⟨hr, bs, array, nodes, hholds, hsame⟩ := h
  obtain ⟨hsize, hsound, hplaced, hlatest⟩ := runOps_contents n ops
  have hentry : ∀ i < n, ∀ e ∈ nodes i, HashTable.hashFunction e.entry.key % n = i := by
    intro i hi e he
    have hmem : e.entry ∈ (nodes i).map Node.entry := List.mem_map_of_mem he
    rw [hsame i hi] at hmem
    exact hsize ▸ hplaced i e.entry hmem
  refine ⟨array, nodes, hholds.tableAt, hentry, ?_, fun key value => ?_,
    fun key text value hkey hserved => ?_, fun key text hkey => ?_⟩
  · have hkeys := keys_nodup hsound hplaced n
    have hmap : ((List.range n).flatMap nodes).map (fun e => e.entry.key) =
        ((List.range n).flatMap (HashTable.runOps (HashTable.hashTableCreate n) ops).buckets).map
          HashTable.HashEntry.key := by
      rw [List.map_flatMap, List.map_flatMap]
      apply List.flatMap_congr
      intro i hi
      rw [← hsame i (List.mem_range.mp hi), List.map_map]
      rfl
    rw [hmap]
    exact hkeys
  · rw [← hlatest key value]
    have hi : HashTable.hashFunction key % n < n := Nat.mod_lt _ hn
    rw [← hsame _ hi, List.mem_map]
    constructor
    · rintro ⟨i, hi', e, he, heq⟩
      have hplace := hentry i hi' e he
      rw [heq] at hplace
      subst hplace
      exact ⟨e, he, heq⟩
    · rintro ⟨e, he, heq⟩
      exact ⟨_, hi, e, he, heq⟩
  · obtain ⟨heap, -, -, hinsert, -⟩ := insert_step hr hn hholds hkey hserved hsame hsize value
    exact ⟨heap, hinsert⟩
  · obtain ⟨heap, -, -, hremove, -, -, hout⟩ := remove_step hr hn hholds hkey hsame hsize hsound
    rw [hremove]
    exact hout

/-- Where the allocations succeed, the invariant holds in every run of a table whose array of
buckets has a size that `ALIGN` does not wrap. -/
theorem bucket_invariant (hs : blockSize ≤ size) (hs' : size + alignment < 2 ^ 32)
    (he : start + size ≤ 2 ^ 32) (hn : 0 < n) (hn' : n ≤ 2 ^ 30 - 2)
    (h : Run start size n (fun _ _ => False) s ops) :
    ∃ array nodes, BucketInvariant start size n s ops array nodes :=
  good_invariant hn (run_good hs hs' he hn hn' (fun _ _ hfalse => hfalse.elim) h)

theorem bucket_invariant_init : ∃ s array nodes, BucketInvariant 0x100000 0x400000 101 s
    [.insert ⟨[105, 110, 105, 116], by decide⟩ 1] array nodes := by
  obtain ⟨s, hrun⟩ := init_run fun _ _ => False
  exact ⟨s, bucket_invariant (by norm_num [blockSize]) (by norm_num [alignment]) (by norm_num)
    (by norm_num) (by norm_num) hrun⟩

end Runs

section Overruns

variable {table array n k x : ℕ} {m : Bytes}

theorem store32_zero {a : ℕ} (h : x < a ∨ a + 4 ≤ x → m x = 0) : store32 m a 0 x = 0 := by
  by_cases hx : x < a ∨ a + 4 ≤ x
  · rw [store32_outside hx]
    exact h hx
  · rw [store32]
    split_ifs
    · rfl
    · rfl
    · rfl
    · rfl
    · omega

theorem clearBuckets_zero (hx : clearBuckets m table k x = 0) (d : ℕ) :
    clearBuckets m table (k + d) x = 0 := by
  induction d with
  | zero => exact hx
  | succ d ih =>
    rw [← Nat.add_assoc, clearBuckets]
    exact store32_zero fun _ => ih

theorem clearBuckets_array (harray : load32 m (table + 4) = array)
    (hapart : ∀ j < k, u32 (array + 4 * j) + 4 ≤ table + 4 ∨ table + 8 ≤ u32 (array + 4 * j)) :
    load32 (clearBuckets m table k) (table + 4) = array := by
  induction k with
  | zero => exact harray
  | succ k ih =>
    have hprev := ih fun j hj => hapart j (by omega)
    have hlast := hapart k (by omega)
    rw [clearBuckets, load32_store32_apart (by rw [bucketAt, hprev]; omega), hprev]

/-- A loop that goes around all of memory comes to the word `size`. -/
theorem clearBuckets_overrun (harray : load32 m (table + 4) = array) (hbehind : table + 8 ≤ array)
    (htop : array < 2 ^ 32) (halign : (array - table) % 4 = 0)
    (hround : 2 ^ 32 - (array - table) < 4 * n) :
    tableSize (clearBuckets m table n) table = 0 := by
  obtain ⟨k, hk⟩ : ∃ k, array - table = 4 * k := ⟨(array - table) / 4, by omega⟩
  obtain ⟨j, hj⟩ : ∃ j, 2 ^ 32 = 4 * k + 4 * j := ⟨2 ^ 30 - k, by omega⟩
  obtain ⟨d, hd⟩ : ∃ d, n = j + 1 + d := ⟨n - (j + 1), by omega⟩
  have hbase := clearBuckets_array (k := j) harray fun i hi => by
    unfold u32
    omega
  have hbucket : bucketAt (clearBuckets m table j) table j = table := by
    rw [bucketAt, hbase, show array + 4 * j = 2 ^ 32 + table by omega]
    unfold u32
    omega
  have hzero : ∀ o < 4, clearBuckets m table (j + 1) (table + o) = 0 := by
    intro o ho
    rw [clearBuckets, hbucket]
    exact store32_zero fun hout => by omega
  have hfinal : ∀ o < 4, clearBuckets m table n (table + o) = 0 := by
    intro o ho
    rw [hd]
    exact clearBuckets_zero (hzero o ho) d
  have h0 := hfinal 0 (by norm_num)
  rw [tableSize, load32, hfinal 1 (by norm_num), hfinal 2 (by norm_num), hfinal 3 (by norm_num),
    show clearBuckets m table n table = 0 from h0]
  rfl

/-- The array of a table with 2^30 buckets is served as a block of no bytes. -/
theorem create_overrun (hwrap : u32 (4 * n) = 0) (hround : 2 ^ 32 - 20 < 4 * n) :
    ∃ heap, hashTableCreate (kheapInit (fun _ => 0) 0x100000 0x400000) n =
      some (heap, 0x10000C) ∧ tableSize heap.mem 0x10000C = 0 := by
  have hr : HeapRange 0x100000 (0x100000 + 0x400000) := ⟨by norm_num, by norm_num, by norm_num⟩
  have howns := owns_nothing (kheapInit_exact (fun _ => 0) hr (by norm_num) (by norm_num))
  have hfirst : allocate 12 8 (align 8) [⟨0x100000, 0x400000 - 12, true⟩] =
      some ([⟨0x100000, 8, false⟩, ⟨0x100014, 0x3FFFE0, true⟩], 0x100000) := by decide
  have hsecond : allocate 12 8 (align 0) [⟨0x100000, 8, false⟩, ⟨0x100014, 0x3FFFE0, true⟩] =
      some ([⟨0x100000, 8, false⟩, ⟨0x100014, 0, false⟩, ⟨0x100020, 0x3FFFD4, true⟩],
        0x100014) := by decide
  obtain ⟨heap₁, hk₁, howns₁, -⟩ := howns.alloc hr (by norm_num) hfirst
  have howns₂ := howns₁.write_region (m := store32 heap₁.mem 0x10000C n) hr List.mem_cons_self
    fun x hx => store32_outside (by simp only at hx; omega)
  obtain ⟨heap₂, hk₂, -⟩ := howns₂.alloc hr (by norm_num) hsecond
  refine ⟨{ heap₂ with mem := clearBuckets (store32 heap₂.mem 0x100010 0x100020) 0x10000C n },
    ?_, clearBuckets_overrun (load32_store32 (by norm_num)) (by norm_num) (by norm_num)
      (by norm_num) hround⟩
  simp only [hashTableCreate, hk₁, hwrap, Option.bind_eq_bind, Option.bind_some]
  rw [if_neg (by norm_num), hk₂]
  rfl

/-- The bytes of the table are overwritten, and the remainder by its size is a division by 0. -/
theorem overrun_breaks_buckets : ¬ ∀ start size, blockSize ≤ size →
    size + alignment < 2 ^ 32 → start + size ≤ 2 ^ 32 → ∀ n, 0 < n → n < 2 ^ 32 → ∀ s ops,
      Run start size n (fun _ _ => False) s ops →
        ∃ array nodes, BucketInvariant start size n s ops array nodes := by
  intro h
  obtain ⟨heap, hcreate, hzero⟩ := create_overrun (n := 2 ^ 30) (by norm_num [u32]) (by norm_num)
  obtain ⟨array, nodes, hinv⟩ := h 0x100000 0x400000 (by norm_num [blockSize])
    (by norm_num [alignment]) (by norm_num) (2 ^ 30) (by norm_num) (by norm_num) _ _
    (.create (.init fun _ => 0) hcreate (by norm_num))
  have hsize := hinv.chains.size
  simp only [hzero] at hsize
  norm_num at hsize

end Overruns

end HashTableBuckets
