import SojebOS.HashTableRuns

/-!
# A table on a heap that runs out

An insertion that gets no block for the entry changes nothing. One that gets the entry and not the
copy of the key links an entry without a key into its bucket.
-/
namespace HashTableExhaustion

open ByteMemory MachineWord WhileLoop FirstFit FirstFitUsed KernelHeap KernelHeapRefinement
  KernelHeapOutcomes KernelHeapFreeing KernelHeapClients CStrings HashTableMemory HashTableChains
  HashTableOperations HashTableContents HashTableRuns
open HashTable (CString Op)

/-- The key is bound to the value in an entry with its own copy of the key. -/
def Mapped (start size n : ℕ) (s : TableState) (text : CString) (value : UInt32) (heap : Heap) :
    Prop :=
  ∃ bs array nodes, Holds start (start + size) heap bs s.others s.table array n nodes ∧
    ∃ e ∈ nodes (HashTable.hashFunction text % n), e.entry = ⟨text, value⟩

def Unchanged (n : ℕ) (s : TableState) (heap : Heap) : Prop :=
  (∃ bs, BlockList s.heap bs ∧ BlockList heap bs) ∧ ∀ array nodes,
    TableAt s.heap.mem s.table array n nodes → TableAt heap.mem s.table array n nodes

def InsertSafe (start size n : ℕ) (s : TableState) (key : ℕ) (text : CString) (value : UInt32) :
    Prop :=
  ∃ heap, hashTableInsert s.heap s.table key value.toNat = some heap ∧
    (Mapped start size n s text value heap ∨ Unchanged n s heap)

def KeysValid (n : ℕ) (s : TableState) : Prop :=
  ∃ array nodes, TableAt s.heap.mem s.table array n nodes ∧ ∀ i < n, ∀ e ∈ nodes i,
    e.copy ≠ 0 ∧ StringAt s.heap.mem e.copy e.entry.key.val

section Insertions

variable {start size n key array : ℕ} {s : TableState} {text : CString} {bs : List Block}
  {nodes : ℕ → List Node}

theorem head_key_nonNull {lo hi table i : ℕ} {heap : Heap} {others : Finset ℕ}
    (h : Holds lo hi heap bs others table array n nodes) (hi' : i < n) (hne : nodes i ≠ []) :
    keyOf heap.mem (load32 heap.mem (array + 4 * i)) ≠ 0 := by
  have hchain := h.tableAt.chains i hi'
  cases hnodes : nodes i with
  | nil => exact absurd hnodes hne
  | cons e es =>
    have hpos := h.pointers_pos hi' (hnodes ▸ List.mem_cons_self)
    rw [hnodes] at hchain
    obtain ⟨haddr, hentry, -⟩ := hchain
    rw [haddr, hentry.key]
    omega

/-- An entry whose key is `NULL` is at the head of the bucket. -/
theorem uncopied_unsafe (hr : HeapRange start (start + size)) (hn : 0 < n)
    (h : Holds start (start + size) s.heap bs s.others s.table array n nodes)
    (hkey : KeyAt start (start + size) s.heap key text) (value : UInt32)
    (hserved : ¬Served n s text) (hfits : EntryFits s.heap) :
    ¬InsertSafe start size n s key text value := by
  have hlist := h.owns.exact.represents.listed
  obtain ⟨bs', cs, a, hlist', ha⟩ := hfits
  obtain rfl : bs' = bs := listed_unique hlist' hlist
  have hc : allocate 12 8 (align (text.val.length + 1)) cs = none := by
    cases hc : allocate 12 8 (align (text.val.length + 1)) cs with
    | none => rfl
    | some taken => exact absurd (.inr ⟨_, _, _, _, _, hlist, ha, hc⟩) hserved
  have hother : ∀ f ∈ nodes (HashTable.hashFunction text % n), f.entry.key ≠ text :=
    fun f hf he => hserved (.inl ⟨array, nodes, h.tableAt, f, hf, he⟩)
  obtain ⟨heap', hinsert, hlisted, hbuckets, hhead, hnull⟩ :=
    h.insert_uncopied hr hn hkey rfl hother value ha hc
  rintro ⟨heap, hresult, hsafe⟩
  cases hinsert.symm.trans hresult
  rcases hsafe with ⟨ds, array', nodes', hholds, e, he, -⟩ | ⟨⟨ds, hds, hds'⟩, -⟩
  · -- the first entry of the chain is the new one
    have hi' : HashTable.hashFunction text % n < n := Nat.mod_lt _ hn
    have harray : array' = array := hholds.tableAt.buckets.symm.trans hbuckets
    have hkeyed := head_key_nonNull hholds hi' (List.ne_nil_of_mem he)
    rw [harray, hhead] at hkeyed
    exact hkeyed hnull
  · -- the block of the entry is in use now
    obtain rfl := listed_unique hds hlist
    obtain rfl := listed_unique hds' hlisted
    obtain ⟨⟨c, -, hmem⟩, -⟩ := allocate_served ha
    exact allocate_fresh h.owns.exact.represents.arena.tiles hmem rfl ha rfl

theorem insert_safe_holds (hr : HeapRange start (start + size)) (hn : 0 < n)
    (h : Holds start (start + size) s.heap bs s.others s.table array n nodes)
    {t : HashTable.Table} (hsame : SameChains n nodes t) (hsize : t.size = n)
    (hsound : HashTable.Sound t)
    (hkey : KeyAt start (start + size) s.heap key text) (value : UInt32) :
    InsertSafe start size n s key text value ↔ Served n s text ∨ ¬EntryFits s.heap := by
  constructor
  · intro hsafe
    by_contra hnot
    rw [not_or, not_not] at hnot
    exact uncopied_unsafe hr hn h hkey value hnot.1 hnot.2 hsafe
  · intro hcond
    by_cases hserved : Served n s text
    · obtain ⟨heap', cs, nodes', hinsert, hholds, hsame'⟩ :=
        insert_step hr hn h hkey hserved hsame hsize value
      refine ⟨heap', hinsert, .inl ⟨cs, array, nodes', hholds, ?_⟩⟩
      have hi' : HashTable.hashFunction text % n < n := Nat.mod_lt _ hn
      have hmem : ⟨text, value⟩ ∈ (HashTable.apply t (.insert text value)).buckets
          (HashTable.hashFunction text % t.size) := (mem_apply hsound).mpr (.inl ⟨rfl, rfl⟩)
      rw [hsize, HashTable.apply, ← hsame' _ hi', List.mem_map] at hmem
      exact hmem
    · have hfull := hcond.resolve_left hserved
      refine ⟨s.heap, drop_step hr hn h hkey (fun hp => hserved (.inl hp)) hfull _, .inr ?_⟩
      exact ⟨⟨bs, h.owns.exact.represents.listed, h.owns.exact.represents.listed⟩,
        fun _ _ htable => htable⟩

end Insertions

section Runs

variable {start size n : ℕ} {s : TableState} {ops : List Op}

theorem good_keysValid (h : Good start size n s ops) : KeysValid n s := by
  obtain ⟨-, bs, array, nodes, hholds, -⟩ := h
  refine ⟨array, nodes, hholds.tableAt, fun i hi e he => ?_⟩
  have hpos := hholds.pointers_pos hi he
  have hentry := (hholds.tableAt.chains i hi).entryAt e he
  exact ⟨by omega, hentry.text⟩

/-- In a run in which every insertion gets what it asks for, or not even the block for the entry,
the table stays whole, and an insertion keeps it so exactly if it is one of these. -/
theorem insert_safe_iff (hs : blockSize ≤ size) (hs' : size + alignment < 2 ^ 32)
    (he : start + size ≤ 2 ^ 32) (hn : 0 < n) (hn' : n ≤ 2 ^ 30 - 2)
    (h : Run start size n (fun s _ => ¬EntryFits s.heap) s ops) :
    KeysValid n s ∧ ∀ key text value, KeyAt start (start + size) s.heap key text →
      (InsertSafe start size n s key text value ↔ Served n s text ∨ ¬EntryFits s.heap) := by
  have hgood := run_good hs hs' he hn hn' (fun _ _ hfull => hfull) h
  refine ⟨good_keysValid hgood, fun key text value hkey => ?_⟩
  obtain ⟨hr, bs, array, nodes, hholds, hsame⟩ := hgood
  have hcontents := runOps_contents n ops
  exact insert_safe_holds hr hn hholds hsame hcontents.size_eq hcontents.sound hkey value

theorem insert_safe_iff_init : ∃ s, KeysValid 101 s ∧
    ∀ key text value, KeyAt 0x100000 (0x100000 + 0x400000) s.heap key text →
      (InsertSafe 0x100000 0x400000 101 s key text value ↔
        Served 101 s text ∨ ¬EntryFits s.heap) := by
  obtain ⟨s, hrun⟩ := init_run fun s _ => ¬EntryFits s.heap
  exact ⟨s, insert_safe_iff (by norm_num [blockSize]) (by norm_num [alignment]) (by norm_num)
    (by norm_num) (by norm_num) hrun⟩

/-- A heap of 68 bytes, on which a table of one bucket leaves a block of 16 bytes. -/
theorem copy_refused : ¬ ∀ start size, blockSize ≤ size → size + alignment < 2 ^ 32 →
    start + size ≤ 2 ^ 32 → ∀ n, 0 < n → n < 2 ^ 32 → ∀ s ops,
      Run start size n (fun _ _ => True) s ops → ∀ key text value,
        KeyAt start (start + size) s.heap key text →
          InsertSafe start size n s key text value := by
  intro h
  have hr : HeapRange 0x1000 (0x1000 + 68) := ⟨by norm_num, by norm_num, by norm_num⟩
  have hfirst : allocate 12 8 (align 8) [⟨0x1000, 68 - 12, true⟩] =
      some ([⟨0x1000, 8, false⟩, ⟨0x1014, 36, true⟩], 0x1000) := by decide
  have hsecond : allocate 12 8 (align (4 * 1)) [⟨0x1000, 8, false⟩, ⟨0x1014, 36, true⟩] =
      some ([⟨0x1000, 8, false⟩, ⟨0x1014, 8, false⟩, ⟨0x1028, 16, true⟩], 0x1014) := by decide
  obtain ⟨heap, hcreate, hholds⟩ := create_served hr
    (kheapInit_exact (fun _ => 0) hr (by norm_num) (by norm_num)) (by norm_num) hfirst hsecond
  have hcreated : Run 0x1000 68 1 (fun _ _ => True) ⟨heap, 0x100C, ∅⟩ [] :=
    .create (.init fun _ => 0) hcreate (by norm_num)
  -- the empty string is written at 1
  obtain ⟨hwrite, hholds', hkey⟩ := hholds.text_below hr (store8 heap.mem 1 0) 1
    ⟨[], List.not_mem_nil⟩ (fun x hx => store8_other (by omega)) (by norm_num)
    ⟨store8_same _ _ _, trivial⟩ (by decide)
  have hlist := hholds'.owns.exact.represents.listed
  have hfits : EntryFits { heap with mem := store8 heap.mem 1 0 } :=
    ⟨_, [⟨0x1000, 8, false⟩, ⟨0x1014, 8, false⟩, ⟨0x1028, 16, false⟩], 0x1028, hlist, by decide⟩
  have hserved : ¬Served 1 ⟨{ heap with mem := store8 heap.mem 1 0 }, 0x100C, ∅⟩
      ⟨[], List.not_mem_nil⟩ := by
    rintro (⟨array, nodes, htable, e, he, -⟩ | ⟨bs, cs, ds, a, c, hbs, ha, hc⟩)
    · rw [tableAt_unique htable hholds'.tableAt _ (Nat.mod_lt _ (by norm_num))] at he
      exact absurd he List.not_mem_nil
    · obtain rfl := listed_unique hbs hlist
      cases (show allocate 12 8 (align 12) _ = some ([⟨0x1000, 8, false⟩, ⟨0x1014, 8, false⟩,
        ⟨0x1028, 16, false⟩], 0x1028) by decide).symm.trans ha
      cases (show allocate 12 8 (align (0 + 1)) [⟨0x1000, 8, false⟩, ⟨0x1014, 8, false⟩,
        ⟨0x1028, 16, false⟩] = none by decide).symm.trans hc
  exact uncopied_unsafe hr (by norm_num) hholds' hkey 1 hserved hfits
    (h 0x1000 68 (by norm_num [blockSize]) (by norm_num [alignment]) (by norm_num) 1 (by norm_num)
      (by norm_num) _ _ (hcreated.write hwrite) 1 _ 1 hkey)

end Runs

end HashTableExhaustion
