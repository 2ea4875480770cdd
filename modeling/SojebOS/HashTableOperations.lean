import SojebOS.HashTableChains

/-!
# The operations on the chains

What `hash_table_insert` and `hash_table_remove` make of the chains of a table, of the regions it
owns and of the block list, for each way they can go.
-/
namespace HashTableOperations

open ByteMemory MachineWord FirstFit KernelHeap KernelHeapRefinement KernelHeapFreeing
  KernelHeapClients CStrings HashTableMemory HashTableChains
open HashTable (CString HashEntry)

/-- The table at `table` has the chains `nodes`, and owns what it is made of. -/
structure Holds (lo hi : ℕ) (heap : Heap) (bs : List Block) (others : Finset ℕ)
    (table array n : ℕ) (nodes : ℕ → List Node) : Prop where
  owns : Owns lo hi heap bs others (tableRegions table array n nodes)
  tableAt : TableAt heap.mem table array n nodes

/-- The text stands at `key`, outside the heap or in blocks that are in use. -/
structure KeyAt (lo hi : ℕ) (heap : Heap) (key : ℕ) (text : CString) : Prop where
  nonNull : key ≠ 0
  string : StringAt heap.mem key text.val
  word : key + text.val.length < 2 ^ 32
  stable : ∃ bs, BlockList heap bs ∧
    ∀ x, key ≤ x → x ≤ key + text.val.length → Stable lo hi bs x

section Lookup

variable {lo hi table array n key i : ℕ} {heap : Heap} {bs : List Block} {others : Finset ℕ}
  {nodes : ℕ → List Node} {text : CString} {e : Node} {pre post : List Node} {r : Region}

theorem chain_mem_regions (hi' : i < n) (hr : r ∈ chainRegions (nodes i)) :
    r ∈ tableRegions table array n nodes :=
  mem_tableRegions.mpr (.inr (.inr ⟨i, hi', hr⟩))

theorem mem_chainRegions {es : List Node} :
    r ∈ chainRegions es ↔ ∃ e ∈ es, r = entryRegion e ∨ r = copyRegion e := by
  simp only [chainRegions, nodeRegions, List.mem_flatMap, List.mem_cons, List.not_mem_nil,
    or_false]

theorem Holds.bucket_address (h : Holds lo hi heap bs others table array n nodes)
    (hr : HeapRange lo hi) (hi' : i < n) :
    bucketAt heap.mem table i = array + 4 * i := by
  have hbd := h.owns.bound array_mem_regions
  have htop := hr.top
  simp only at hbd
  rw [bucketAt, h.tableAt.buckets, u32_of_lt (by omega)]

theorem table_ne_array (h : Owns lo hi heap bs others (tableRegions table array n nodes)) :
    (⟨table, 8⟩ : Region).ptr ≠ array :=
  fun he => (List.nodup_cons.mp h.nodup).1 (List.mem_map.mpr ⟨_, List.mem_cons_self, he.symm⟩)

theorem chain_ne_array (h : Owns lo hi heap bs others (tableRegions table array n nodes))
    {j : ℕ} (hj : j < n) (hr : r ∈ chainRegions (nodes j)) : r.ptr ≠ array := by
  have hrest := (List.nodup_cons.mp (List.nodup_cons.mp h.nodup).2).1
  intro he
  refine hrest (List.mem_map.mpr ⟨r, ?_, he⟩)
  exact List.mem_flatMap.mpr ⟨j, List.mem_range.mpr hj, hr⟩

theorem Holds.pointers_pos (h : Holds lo hi heap bs others table array n nodes) (hi' : i < n)
    (he : e ∈ nodes i) : 12 ≤ e.addr ∧ 12 ≤ e.copy := by
  have hentry := h.owns.pos (chain_mem_regions hi' (mem_chainRegions.mpr ⟨e, he, .inl rfl⟩))
  have hcopy := h.owns.pos (chain_mem_regions hi' (mem_chainRegions.mpr ⟨e, he, .inr rfl⟩))
  exact ⟨hentry, hcopy⟩

theorem Holds.key_length (h : Holds lo hi heap bs others table array n nodes)
    (hr : HeapRange lo hi) (hi' : i < n) :
    ∀ e ∈ nodes i, e.entry.key.val.length < wordCount := by
  intro e he
  have hbd := h.owns.bound (chain_mem_regions hi' (mem_chainRegions.mpr ⟨e, he, .inr rfl⟩))
  have htop := hr.top
  simp only [copyRegion] at hbd
  show e.entry.key.val.length < 2 ^ 32
  omega

theorem addresses_sublist (es : List Node) :
    (es.map Node.addr).Sublist ((chainRegions es).map Region.ptr) := by
  induction es with
  | nil => exact List.Sublist.refl _
  | cons e es ih => exact (ih.cons _).cons_cons _

theorem length_lt_of_nodup {l : List ℕ} {N : ℕ} (hN : 0 < N) (hl : l.Nodup)
    (h : ∀ a ∈ l, a < N ∧ a ≠ 0) : l.length < N := by
  have hcons : (0 :: l).Nodup := List.nodup_cons.mpr ⟨fun h0 => (h 0 h0).2 rfl, hl⟩
  have hsub : (0 :: l).toFinset ⊆ Finset.range N := by
    intro a ha
    rw [List.mem_toFinset, List.mem_cons] at ha
    rw [Finset.mem_range]
    rcases ha with rfl | ha
    · exact hN
    · exact (h a ha).1
  have hle := Finset.card_le_card hsub
  rwa [List.toFinset_card_of_nodup hcons, Finset.card_range] at hle

theorem Holds.chain_length (h : Holds lo hi heap bs others table array n nodes) (hi' : i < n) :
    (nodes i).length < wordCount := by
  have hsub : ((chainRegions (nodes i)).map Region.ptr).Sublist
      ((tableRegions table array n nodes).map Region.ptr) := by
    apply List.Sublist.map
    refine ((List.sublist_flatten_of_mem ?_).cons _).cons _
    exact List.mem_map.mpr ⟨i, List.mem_range.mpr hi', rfl⟩
  have hnodup := ((addresses_sublist (nodes i)).trans hsub).nodup h.owns.nodup
  have hbound : ∀ a ∈ (nodes i).map Node.addr, a < 2 ^ 32 ∧ a ≠ 0 := by
    intro a ha
    obtain ⟨e, he, rfl⟩ := List.mem_map.mp ha
    have hmem : entryRegion e ∈ tableRegions table array n nodes :=
      chain_mem_regions hi' (mem_chainRegions.mpr ⟨e, he, .inl rfl⟩)
    have hbd := h.owns.bound hmem
    simp only [entryRegion] at hbd
    omega
  have hlt := length_lt_of_nodup (by norm_num) hnodup hbound
  rwa [List.length_map] at hlt

theorem KeyAt.small (hkey : KeyAt lo hi heap key text) (hr : HeapRange lo hi)
    (h : Holds lo hi heap bs others table array n nodes) :
    text.val.length + 1 ≤ 2 ^ 32 - 8 := by
  obtain ⟨ds, hlist, hstable⟩ := hkey.stable
  obtain rfl : ds = bs := listed_unique hlist h.owns.exact.represents.listed
  have hpos := hkey.nonNull
  have hword := hkey.word
  have htable := h.owns.bound (table_mem_regions)
  simp only at htable
  -- the header in front of the table is no part of the string
  have hoff : ∀ x, key ≤ x → x ≤ key + text.val.length → x < table - 12 ∨ table ≤ x := by
    intro x hx hx'
    exact (hstable x hx hx').off_header (r := ⟨table, 8⟩) hr h.owns table_mem_regions
  have hfirst := hoff key le_rfl (Nat.le_add_right _ _)
  rcases Nat.lt_or_ge (key + text.val.length) (table - 12) with hbelow | hbehind
  · omega
  · have hheader := hoff (table - 12)
    omega

theorem Holds.accepted (h : Holds lo hi heap bs others table array n nodes)
    (hkey : KeyAt lo hi heap key text) : ¬(table = 0 ∨ key = 0) := by
  have hpos := h.owns.pos table_mem_regions
  have hnonNull := hkey.nonNull
  simp only at hpos
  omega

theorem Holds.index (h : Holds lo hi heap bs others table array n nodes) (hn : 0 < n)
    (hkey : KeyAt lo hi heap key text) :
    indexOf heap.mem table key = some (HashTable.hashFunction text % n) := by
  have hword := hkey.word
  have hhash := hashFunction_string text hkey.string (show text.val.length < 2 ^ 32 by omega)
  rw [indexOf, hhash, h.tableAt.size, Option.bind_eq_bind, Option.bind_some, if_neg (by omega)]

theorem Holds.found (h : Holds lo hi heap bs others table array n nodes) (hr : HeapRange lo hi)
    (hi' : i < n) (hkey : KeyAt lo hi heap key text) (hnodes : nodes i = pre ++ e :: post)
    (hpre : ∀ f ∈ pre, f.entry.key ≠ text) (he : e.entry.key = text) :
    search heap.mem key (load32 heap.mem (bucketAt heap.mem table i)) =
      some ((pre.map Node.addr).getLastD 0, e.addr) := by
  have hlens := h.key_length hr hi'
  have hcount := h.chain_length hi'
  have hchain := h.tableAt.chains i hi'
  rw [hnodes] at hlens hcount hchain
  rw [List.length_append] at hcount
  rw [h.bucket_address hr hi']
  exact search_found hkey.string hlens hpre he hchain (by omega)

theorem Holds.absent (h : Holds lo hi heap bs others table array n nodes) (hr : HeapRange lo hi)
    (hi' : i < n) (hkey : KeyAt lo hi heap key text)
    (hother : ∀ f ∈ nodes i, f.entry.key ≠ text) :
    ∃ prev, search heap.mem key (load32 heap.mem (bucketAt heap.mem table i)) =
      some (prev, 0) := by
  rw [h.bucket_address hr hi']
  exact search_absent hkey.string (h.key_length hr hi') hother (h.tableAt.chains i hi')
    (h.chain_length hi')

theorem Holds.text_below (h : Holds lo hi heap bs others table array n nodes)
    (hr : HeapRange lo hi) (m : Bytes) (key : ℕ) (text : CString)
    (hm : ∀ x, lo ≤ x → m x = heap.mem x) (hkey : key ≠ 0) (hs : StringAt m key text.val)
    (hend : key + text.val.length < lo) :
    (∀ x, m x ≠ heap.mem x → OthersByte lo hi heap others x) ∧
      Holds lo hi { heap with mem := m } bs others table array n nodes ∧
      KeyAt lo hi { heap with mem := m } key text := by
  have hwrite : ∀ x, m x ≠ heap.mem x → OthersByte lo hi heap others x :=
    fun x hx => .inl (Nat.lt_of_not_le fun hle => hx (hm x hle))
  obtain ⟨howns, hbytes⟩ := h.owns.others_write hr hwrite
  have hbound := h.owns.bound table_mem_regions
  refine ⟨hwrite, ⟨howns, h.tableAt.congr hbytes⟩, hkey, hs, by omega, bs,
    howns.exact.represents.listed, fun x _ hx => .inl (by omega)⟩

end Lookup

section Creation

variable {lo hi table array n : ℕ} {heap heap' : Heap} {bs : List Block} {others : Finset ℕ}
  {m : Bytes}

/-- The loop stores `NULL` in the buckets, and in nothing else. -/
theorem clearBuckets_spec (hbuckets : load32 m (table + 4) = array) (hfit : array + 4 * n ≤ 2 ^ 32)
    (hapart : table + 8 ≤ array ∨ array + 4 * n ≤ table) {k : ℕ} (hk : k ≤ n) :
    (∀ x, x < array ∨ array + 4 * k ≤ x → clearBuckets m table k x = m x) ∧
      ∀ j < k, load32 (clearBuckets m table k) (array + 4 * j) = 0 := by
  induction k with
  | zero => exact ⟨fun x _ => rfl, fun j hj => absurd hj (Nat.not_lt_zero j)⟩
  | succ k ih =>
    obtain ⟨hoff, hzero⟩ := ih (by omega)
    have hsame : load32 (clearBuckets m table k) (table + 4) = array :=
      (load32_congr fun x hx hx' => hoff x (by omega)).trans hbuckets
    have hbucket : bucketAt (clearBuckets m table k) table k = array + 4 * k := by
      rw [bucketAt, hsame, u32_of_lt (by omega)]
    rw [clearBuckets, hbucket]
    constructor
    · intro x hx
      rw [store32_outside (by omega)]
      exact hoff x (by omega)
    · intro j hj
      by_cases hjk : j = k
      · rw [hjk]
        exact load32_store32 (by norm_num)
      · rw [load32_store32_apart (by omega)]
        exact hzero j (by omega)

theorem create_served {cs ds : List Block} {a c : ℕ} (hr : HeapRange lo hi)
    (hexact : Exact lo hi ⟨heap, others⟩ bs) (hn : n ≤ 2 ^ 30 - 2)
    (ha : allocate 12 8 (align 8) bs = some (cs, a))
    (hc : allocate 12 8 (align (4 * n)) cs = some (ds, c)) :
    ∃ heap', hashTableCreate heap n = some (heap', a + 12) ∧
      Holds lo hi heap' ds others (a + 12) (c + 12) n fun _ => [] := by
  have hsize : u32 (4 * n) = 4 * n := u32_of_lt (by omega)
  obtain ⟨heap₁, hk₁, howns₁, -⟩ := (owns_nothing hexact).alloc hr (by norm_num) ha
  have hm₁ : ∀ x, x < a + 12 ∨ a + 12 + 8 ≤ x → store32 heap₁.mem (a + 12) n x = heap₁.mem x :=
    fun x hx => store32_outside (by omega)
  have howns₂ := howns₁.write_region hr List.mem_cons_self hm₁
  obtain ⟨heap₂, hk₂, howns₃, hkept⟩ := howns₂.alloc hr (by omega) hc
  have harray := howns₃.bound List.mem_cons_self
  have hapart := howns₃.regions_apart List.mem_cons_self
    (List.mem_cons_of_mem _ List.mem_cons_self)
    (List.ne_of_not_mem_cons (List.nodup_cons.mp howns₃.nodup).1)
  have htop := hr.top
  simp only at harray hapart
  have hm₂ : ∀ x, x < a + 12 ∨ a + 12 + 8 ≤ x →
      store32 heap₂.mem (a + 12 + 4) (c + 12) x = heap₂.mem x :=
    fun x hx => store32_outside (by omega)
  have howns₄ := howns₃.write_region hr (List.mem_cons_of_mem _ List.mem_cons_self) hm₂
  -- the loop over the array
  have hbuckets : load32 (store32 heap₂.mem (a + 12 + 4) (c + 12)) (a + 12 + 4) = c + 12 :=
    load32_store32 harray.2.2
  obtain ⟨hoff, hzero⟩ := clearBuckets_spec (n := n) hbuckets (by omega) (by omega) le_rfl
  have howns₅ := howns₄.write_region hr List.mem_cons_self hoff
  have hregions : tableRegions (a + 12) (c + 12) n (fun _ => []) =
      [⟨a + 12, 8⟩, ⟨c + 12, 4 * n⟩] := by
    simp [tableRegions, chainRegions]
  have hword : load32 heap₂.mem (a + 12) = n := by
    have hsame : SameBytes _ heap₂.mem ⟨a + 12, 8⟩ := fun x hx hx' =>
      (hkept x (howns₂.stable List.mem_cons_self hx hx')).1
    exact (load32_same hsame le_rfl (by omega)).trans (load32_store32 (by omega))
  refine ⟨{ heap₂ with
      mem := clearBuckets (store32 heap₂.mem (a + 12 + 4) (c + 12)) (a + 12) n },
    ?_, ?_, ?_, ?_, fun i hi' => hzero i hi'⟩
  · simp only [hashTableCreate, hk₁, hsize, hk₂, Option.bind_eq_bind, Option.bind_some,
      if_neg (Nat.succ_ne_zero _)]
    rfl
  · rw [hregions]
    exact howns₅.perm (List.Perm.swap _ _ _)
  · rw [tableSize, load32_congr fun x hx hx' => hoff x (by omega), load32_store32_apart (by omega),
      hword]
  · rw [load32_congr fun x hx hx' => hoff x (by omega), load32_store32 harray.2.2]

theorem create_holds (hr : HeapRange lo hi) (hexact : Exact lo hi ⟨heap, others⟩ bs)
    (hn : n ≤ 2 ^ 30 - 2) (hcreate : hashTableCreate heap n = some (heap', table))
    (htable : table ≠ 0) :
    ∃ ds array, Holds lo hi heap' ds others table array n fun _ => [] := by
  have howns := owns_nothing hexact
  cases ha : allocate 12 8 (align 8) bs with
  | none =>
    rw [hashTableCreate, howns.alloc_none hr ha] at hcreate
    cases hcreate
    exact absurd rfl htable
  | some served =>
    cases hc : allocate 12 8 (align (4 * n)) served.1 with
    | none =>
      obtain ⟨heap₁, hk, howns₁, -⟩ := howns.alloc hr (by norm_num) ha
      have hm : ∀ x, x < served.2 + 12 ∨ served.2 + 12 + 8 ≤ x →
          store32 heap₁.mem (served.2 + 12) n x = heap₁.mem x :=
        fun x hx => store32_outside (by omega)
      have hnull := (howns₁.write_region hr List.mem_cons_self hm).alloc_none hr hc
      simp only [hashTableCreate, hk, u32_of_lt (show 4 * n < 2 ^ 32 by omega), hnull,
        Option.bind_eq_bind, Option.bind_some, if_neg (Nat.succ_ne_zero _), if_true,
        Option.bind_eq_some_iff] at hcreate
      obtain ⟨heap₂, -, hreturn⟩ := hcreate
      cases hreturn
      exact absurd rfl htable
    | some buckets =>
      obtain ⟨heap₂, hcreated, hholds⟩ := create_served hr hexact hn ha hc
      cases hcreated.symm.trans hcreate
      exact ⟨_, _, hholds⟩

end Creation

section Updates

variable {lo hi table array n key i : ℕ} {heap heap' : Heap} {bs : List Block}
  {others : Finset ℕ} {nodes : ℕ → List Node} {text : CString} {e : Node} {pre post : List Node}
  {m : Bytes}

theorem Holds.split (h : Holds lo hi heap bs others table array n nodes) (hi' : i < n)
    (hnodes : nodes i = pre ++ e :: post) :
    Owns lo hi heap bs others (entryRegion e :: copyRegion e ::
      tableRegions table array n (Function.update nodes i (pre ++ post))) := by
  have hperm := tableRegions_update table array nodes pre e post hi'
  rw [← hnodes, Function.update_eq_self] at hperm
  exact h.owns.perm hperm

theorem Holds.set_value (h : Holds lo hi heap bs others table array n nodes)
    (hr : HeapRange lo hi) (hi' : i < n) (hnodes : nodes i = pre ++ e :: post) (value : UInt32) :
    Holds lo hi { heap with mem := setValue heap.mem e.addr value.toNat } bs others table array n
      (Function.update nodes i (pre ++ e.withValue value :: post)) := by
  have hsplit := h.split hi' hnodes
  have hoff : ∀ x, x < e.addr ∨ e.addr + 12 ≤ x →
      setValue heap.mem e.addr value.toNat x = heap.mem x :=
    fun x hx => store32_outside (by omega)
  have hsame := hsplit.same_elsewhere (List.Perm.refl _) hoff
  have hrest := fun r hr => hsame r (List.mem_cons_of_mem _ hr)
  constructor
  · have hperm := tableRegions_update table array nodes pre (e.withValue value) post hi'
    exact (hsplit.write_region hr List.mem_cons_self hoff).perm hperm.symm
  · have harray := hrest _ array_mem_regions
    apply h.tableAt.update
    · exact hrest _ table_mem_regions
    · exact fun j hj _ => load32_same harray (by omega) (by omega)
    · exact fun j hj hji r hr => hrest r (mem_other_regions hj hji hr)
    · have hchain := h.tableAt.chains i hi'
      rw [hnodes] at hchain
      obtain ⟨q, hpre, rfl, he, hpost⟩ := chainAt_append.mp hchain
      have hregions : ∀ r ∈ chainRegions pre ++ chainRegions post,
          SameBytes heap.mem (setValue heap.mem e.addr value.toNat) r := by
        intro r hr
        apply hrest r (mem_update_regions hi' _)
        rwa [chainRegions, List.flatMap_append]
      rw [load32_same harray (by omega) (by omega)]
      refine chainAt_append.mpr ⟨e.addr, hpre.congr fun r hr => hregions r
        (List.mem_append_left _ hr), rfl, he.setValue (hsame _ List.mem_cons_self), ?_⟩
      have hnext : nextOf (setValue heap.mem e.addr value.toNat) (e.withValue value).addr =
          nextOf heap.mem e.addr := nextOf_setValue _ _ _
      rw [hnext]
      exact hpost.congr fun r hr => hregions r (List.mem_append_right _ hr)

theorem Holds.insert_present (h : Holds lo hi heap bs others table array n nodes)
    (hr : HeapRange lo hi) (hn : 0 < n) (hkey : KeyAt lo hi heap key text)
    (hindex : HashTable.hashFunction text % n = i) (hnodes : nodes i = pre ++ e :: post)
    (hpre : ∀ f ∈ pre, f.entry.key ≠ text) (he : e.entry.key = text) (value : ℕ) :
    hashTableInsert heap table key value =
      some { heap with mem := setValue heap.mem e.addr value } := by
  have hi' : i < n := hindex ▸ Nat.mod_lt _ hn
  have hchain := h.tableAt.chains i hi'
  have hnonNull : e.addr ≠ 0 := (hchain.entryAt e (by simp [hnodes])).nonNull
  have hsearch := h.found hr hi' hkey hnodes hpre he
  rw [hashTableInsert, if_neg (h.accepted hkey)]
  simp only [h.index hn hkey, hindex, hsearch, Option.bind_eq_bind, Option.bind_some,
    if_pos hnonNull]
  rfl

end Updates

section Copies

variable {lo hi key : ℕ} {heap : Heap} {bs cs : List Block} {others : Finset ℕ}
  {rs : List Region} {text : CString} {a : ℕ}

theorem strdup_eq (hs : StringAt heap.mem key text.val)
    (hsmall : text.val.length + 1 ≤ 2 ^ 32 - 8) : strdup heap key =
      (kmalloc heap (text.val.length + 1)).map fun result =>
        if result.2 = 0 then (result.1, 0)
        else ({ result.1 with
          mem := memcpy result.1.mem result.2 key (text.val.length + 1) }, result.2) := by
  have hlen := strlen_string text hs (show text.val.length < 2 ^ 32 by omega)
  simp only [strdup, hlen, Option.bind_eq_bind, Option.bind_some,
    u32_of_lt (show text.val.length + 1 < 2 ^ 32 by omega)]
  cases kmalloc heap (text.val.length + 1) with
  | none => rfl
  | some result =>
    rw [Option.bind_some, Option.map_some]
    split
    · rfl
    · rfl

theorem strdup_null (hr : HeapRange lo hi) (h : Owns lo hi heap bs others rs)
    (hs : StringAt heap.mem key text.val) (hsmall : text.val.length + 1 ≤ 2 ^ 32 - 8)
    (ha : allocate 12 8 (align (text.val.length + 1)) bs = none) :
    strdup heap key = some (heap, 0) := by
  rw [strdup_eq hs hsmall, h.alloc_none hr ha, Option.map_some]
  exact congrArg some (if_pos rfl)

theorem strdup_copies (hr : HeapRange lo hi) (h : Owns lo hi heap bs others rs)
    (hs : StringAt heap.mem key text.val) (hsmall : text.val.length + 1 ≤ 2 ^ 32 - 8)
    (hword : key + text.val.length < 2 ^ 32)
    (hstable : ∀ x, key ≤ x → x ≤ key + text.val.length → Stable lo hi bs x)
    (ha : allocate 12 8 (align (text.val.length + 1)) bs = some (cs, a)) :
    ∃ heap', strdup heap key = some (heap', a + 12) ∧
      Owns lo hi heap' cs others (⟨a + 12, text.val.length + 1⟩ :: rs) ∧
      StringAt heap'.mem (a + 12) text.val ∧
      ∀ x, Stable lo hi bs x → heap'.mem x = heap.mem x ∧ Stable lo hi cs x := by
  obtain ⟨heap₁, hk, howns, hkept⟩ := h.alloc hr hsmall ha
  have hbd := howns.bound List.mem_cons_self
  have htop := hr.top
  simp only at hbd
  have hoff : ∀ x, x < a + 12 ∨ a + 12 + (text.val.length + 1) ≤ x →
      memcpy heap₁.mem (a + 12) key (text.val.length + 1) x = heap₁.mem x :=
    fun x hx => memcpy_outside _ (by omega) hx
  -- the string lies apart from its copy
  have hapart : key + (text.val.length + 1) ≤ a + 12 ∨ a + 12 + (text.val.length + 1) ≤ key := by
    have hfirst := (hkept key (hstable key le_rfl (by omega))).2.2
    by_contra hover
    have hinside := (hkept (a + 12) (hstable (a + 12) (by omega) (by omega))).2.2
    omega
  have hcopy : StringAt (memcpy heap₁.mem (a + 12) key (text.val.length + 1)) (a + 12)
      text.val := by
    rw [StringAt, textAt_iff]
    intro i hi'
    rw [List.length_append, List.length_singleton] at hi'
    rw [memcpy_inside _ (by omega) (by omega) hapart hi',
      (hkept _ (hstable (key + i) (by omega) (by omega))).1]
    exact textAt_iff.mp hs i (by rwa [List.length_append])
  refine ⟨{ heap₁ with mem := memcpy heap₁.mem (a + 12) key (text.val.length + 1) }, ?_,
    howns.write_region hr List.mem_cons_self hoff, hcopy, fun x hx => ?_⟩
  · rw [strdup_eq hs hsmall, hk, Option.map_some]
    exact congrArg some (if_neg (by omega))
  · obtain ⟨hsame, hstays, hout⟩ := hkept x hx
    exact ⟨(hoff x hout).trans hsame, hstays⟩

end Copies

section Insertions

variable {lo hi table array n key i : ℕ} {heap heap₁ heap₂ : Heap} {bs cs ds : List Block}
  {others : Finset ℕ} {nodes : ℕ → List Node} {text : CString} {a c : ℕ}

/-- The key is not in its bucket, so the allocator decides. -/
theorem Holds.insert_absent (h : Holds lo hi heap bs others table array n nodes)
    (hr : HeapRange lo hi) (hn : 0 < n) (hkey : KeyAt lo hi heap key text)
    (hindex : HashTable.hashFunction text % n = i)
    (hother : ∀ f ∈ nodes i, f.entry.key ≠ text) (value : ℕ) :
    hashTableInsert heap table key value = (kmalloc heap 12).bind fun served =>
      if served.2 = 0 then some served.1
      else (strdup served.1 key).map fun copied =>
        { copied.1 with mem := linkEntry copied.1.mem table i served.2 copied.2 value } := by
  have hi' : i < n := hindex ▸ Nat.mod_lt _ hn
  obtain ⟨prev, hsearch⟩ := h.absent hr hi' hkey hother
  rw [hashTableInsert, if_neg (h.accepted hkey)]
  simp only [h.index hn hkey, hindex, hsearch, Option.bind_eq_bind, Option.bind_some, ne_eq,
    not_true_eq_false, if_false]
  cases kmalloc heap 12 with
  | none => rfl
  | some served =>
    rw [Option.bind_some, Option.bind_some]
    split
    · rfl
    · cases strdup served.1 key with
      | none => rfl
      | some copied => rfl

theorem Holds.insert_refused (h : Holds lo hi heap bs others table array n nodes)
    (hr : HeapRange lo hi) (hn : 0 < n) (hkey : KeyAt lo hi heap key text)
    (hindex : HashTable.hashFunction text % n = i)
    (hother : ∀ f ∈ nodes i, f.entry.key ≠ text) (value : ℕ)
    (ha : allocate 12 8 (align 12) bs = none) :
    hashTableInsert heap table key value = some heap := by
  rw [h.insert_absent hr hn hkey hindex hother, h.owns.alloc_none hr ha, Option.bind_some]
  exact if_pos rfl

theorem Holds.link (h : Holds lo hi heap bs others table array n nodes) (hr : HeapRange lo hi)
    (hi' : i < n) {qs : List Region} {newEntry copy value : ℕ}
    (howns : Owns lo hi heap₂ ds others (⟨newEntry, 12⟩ :: qs))
    (hqs : ∀ r ∈ tableRegions table array n nodes, r ∈ qs)
    (hsame : ∀ r ∈ tableRegions table array n nodes, SameBytes heap.mem heap₂.mem r)
    (hcopy : copy < 2 ^ 32) (hvalue : value < 2 ^ 32) {m' : Bytes}
    (hm' : m' = linkEntry heap₂.mem table i newEntry copy value) :
    Owns lo hi { heap₂ with mem := m' } ds others (⟨newEntry, 12⟩ :: qs) ∧
      EntryLinked heap₂.mem (array + 4 * i) newEntry copy value m' ∧
      (∀ r ∈ qs, r.ptr ≠ array → SameBytes heap₂.mem m' r) ∧
      ∀ j < n, j ≠ i → load32 m' (array + 4 * j) = load32 heap₂.mem (array + 4 * j) := by
  have htable := hqs _ table_mem_regions
  have harray := hqs _ array_mem_regions
  have hne : ∀ r ∈ qs, newEntry ≠ r.ptr := fun r hmem he =>
    (List.nodup_cons.mp howns.nodup).1 (List.mem_map.mpr ⟨r, hmem, he.symm⟩)
  have hoffTable := howns.regions_apart List.mem_cons_self (List.mem_cons_of_mem _ htable)
    (hne _ htable)
  have hoffArray := howns.regions_apart List.mem_cons_self (List.mem_cons_of_mem _ harray)
    (hne _ harray)
  have hnew := howns.bound List.mem_cons_self
  have hbound := howns.bound (List.mem_cons_of_mem _ harray)
  have htop := hr.top
  simp only at hoffTable hoffArray hnew hbound
  have hbucket : bucketAt heap₂.mem table i = array + 4 * i := by
    rw [bucketAt, load32_same (hsame _ table_mem_regions) (by omega) (by omega),
      h.tableAt.buckets, u32_of_lt (by omega)]
  have hlinked := linkEntry_linked hbucket hnew.2.2 hcopy hvalue (by omega) (by omega)
  rw [← hm'] at hlinked
  have hwritten : ∀ x, m' x ≠ heap₂.mem x → newEntry ≤ x ∧ x < newEntry + 12 ∨
      array + 4 * i ≤ x ∧ x < array + 4 * i + 4 := by
    intro x hx
    by_contra hout
    exact hx (hlinked.other x (by omega) (by omega))
  refine ⟨howns.write hr fun x hx => ?_, hlinked, fun r hmem hptr x hx hx' => ?_,
    fun j hj hji => load32_congr fun x hx hx' => ?_⟩
  · rcases hwritten x hx with hin | hin
    · exact howns.stable List.mem_cons_self hin.1 hin.2
    · exact howns.stable (List.mem_cons_of_mem _ harray) (show array ≤ x by omega)
        (show x < array + 4 * n by omega)
  · by_contra hdiff
    have hnewApart := howns.regions_apart List.mem_cons_self (List.mem_cons_of_mem _ hmem)
      (hne r hmem)
    have harrayApart := howns.regions_apart (List.mem_cons_of_mem _ harray)
      (List.mem_cons_of_mem _ hmem) hptr.symm
    simp only at hnewApart harrayApart
    rcases hwritten x hdiff with hin | hin
    · omega
    · omega
  · by_contra hdiff
    rcases hwritten x hdiff with hin | hin
    · omega
    · omega

theorem Holds.entry_block (h : Holds lo hi heap bs others table array n nodes)
    (hr : HeapRange lo hi) (hkey : KeyAt lo hi heap key text)
    (ha : allocate 12 8 (align 12) bs = some (cs, a)) :
    ∃ heap₁, kmalloc heap 12 = some (heap₁, a + 12) ∧
      Owns lo hi heap₁ cs others (⟨a + 12, 12⟩ :: tableRegions table array n nodes) ∧
      (∀ r ∈ tableRegions table array n nodes, SameBytes heap.mem heap₁.mem r) ∧
      StringAt heap₁.mem key text.val ∧
      ∀ x, key ≤ x → x ≤ key + text.val.length → Stable lo hi cs x := by
  obtain ⟨ks, hlist, hstable⟩ := hkey.stable
  obtain rfl : ks = bs := listed_unique hlist h.owns.exact.represents.listed
  obtain ⟨heap₁, hk, howns, hkept⟩ := h.owns.alloc hr (by norm_num) ha
  refine ⟨heap₁, hk, howns, fun r hmem x hx hx' => ?_, ?_, fun x hx hx' => ?_⟩
  · exact (hkept x (h.owns.stable hmem hx hx')).1
  · exact StringAt.same hkey.string fun x hx hx' =>
      (hkept x (hstable x hx (by simp only at hx'; omega))).1
  · exact (hkept x (hstable x hx hx')).2.1

/-- There is room for the entry and none for the copy: an entry with the key `NULL` is linked in. -/
theorem Holds.insert_uncopied (h : Holds lo hi heap bs others table array n nodes)
    (hr : HeapRange lo hi) (hn : 0 < n) (hkey : KeyAt lo hi heap key text)
    (hindex : HashTable.hashFunction text % n = i)
    (hother : ∀ f ∈ nodes i, f.entry.key ≠ text) (value : UInt32)
    (ha : allocate 12 8 (align 12) bs = some (cs, a))
    (hc : allocate 12 8 (align (text.val.length + 1)) cs = none) :
    ∃ heap', hashTableInsert heap table key value.toNat = some heap' ∧ BlockList heap' cs ∧
      load32 heap'.mem (table + 4) = array ∧ load32 heap'.mem (array + 4 * i) = a + 12 ∧
      keyOf heap'.mem (a + 12) = 0 := by
  have hi' : i < n := hindex ▸ Nat.mod_lt _ hn
  obtain ⟨heap₁, hk, howns, hsame, hstring, -⟩ := h.entry_block hr hkey ha
  have hnull := strdup_null hr howns hstring (hkey.small hr h) hc
  obtain ⟨hlinkedOwns, hlinked, hregions, -⟩ := h.link hr hi' howns (fun r hmem => hmem) hsame
    (show 0 < 2 ^ 32 by norm_num) value.toNat_lt rfl
  have htable : SameBytes heap.mem _ ⟨table, 8⟩ := (hsame _ table_mem_regions).trans
    (hregions _ table_mem_regions (table_ne_array h.owns))
  refine ⟨{ heap₁ with mem := linkEntry heap₁.mem table i (a + 12) 0 value.toNat }, ?_,
    hlinkedOwns.exact.represents.listed, ?_, hlinked.head, hlinked.key⟩
  · rw [h.insert_absent hr hn hkey hindex hother, hk, Option.bind_some,
      if_neg (by simp only; omega), hnull]
    rfl
  · exact (load32_same htable (by omega) (by omega)).trans h.tableAt.buckets

theorem Holds.insert_new (h : Holds lo hi heap bs others table array n nodes)
    (hr : HeapRange lo hi) (hn : 0 < n) (hkey : KeyAt lo hi heap key text)
    (hindex : HashTable.hashFunction text % n = i)
    (hother : ∀ f ∈ nodes i, f.entry.key ≠ text) (value : UInt32)
    (ha : allocate 12 8 (align 12) bs = some (cs, a))
    (hc : allocate 12 8 (align (text.val.length + 1)) cs = some (ds, c)) :
    ∃ heap', hashTableInsert heap table key value.toNat = some heap' ∧
      Holds lo hi heap' ds others table array n
        (Function.update nodes i (⟨a + 12, c + 12, ⟨text, value⟩⟩ :: nodes i)) := by
  have hi' : i < n := hindex ▸ Nat.mod_lt _ hn
  obtain ⟨heap₁, hk, howns, hsame₁, hstring, hstable⟩ := h.entry_block hr hkey ha
  obtain ⟨heap₂, hdup, howns₂, hcopy, hkept⟩ :=
    strdup_copies hr howns hstring (hkey.small hr h) hkey.word hstable hc
  have hsame : ∀ r ∈ tableRegions table array n nodes, SameBytes heap.mem heap₂.mem r := by
    refine fun r hmem => (hsame₁ r hmem).trans fun x hx hx' => ?_
    exact (hkept x (howns.stable (List.mem_cons_of_mem _ hmem) hx hx')).1
  have hcopyBound := howns₂.bound List.mem_cons_self
  have hlink := h.link hr hi' (howns₂.perm (List.Perm.swap _ _ _))
    (fun r hmem => List.mem_cons_of_mem _ hmem) hsame hcopyBound.2.2 value.toNat_lt rfl
  obtain ⟨hlinkedOwns, hlinked, hregions, hbuckets⟩ := hlink
  have hkeptRegions : ∀ r ∈ tableRegions table array n nodes, r.ptr ≠ array →
      SameBytes heap.mem (linkEntry heap₂.mem table i (a + 12) (c + 12) value.toNat) r :=
    fun r hmem hne => (hsame r hmem).trans (hregions r (List.mem_cons_of_mem _ hmem) hne)
  refine ⟨{ heap₂ with mem := linkEntry heap₂.mem table i (a + 12) (c + 12) value.toNat }, ?_, ?_⟩
  · rw [h.insert_absent hr hn hkey hindex hother, hk, Option.bind_some,
      if_neg (by simp only; omega), hdup]
    rfl
  constructor
  · have hperm := tableRegions_update table array nodes [] ⟨a + 12, c + 12, ⟨text, value⟩⟩
      (nodes i) hi'
    rw [List.nil_append, List.nil_append, Function.update_eq_self] at hperm
    exact hlinkedOwns.perm hperm.symm
  · have harray := hsame _ array_mem_regions
    apply h.tableAt.update
    · exact hkeptRegions _ table_mem_regions (table_ne_array h.owns)
    · intro j hj hji
      exact (hbuckets j hj hji).trans (load32_same harray (by omega) (by omega))
    · exact fun j hj _ r hmem =>
        hkeptRegions r (chain_mem_regions hj hmem) (chain_ne_array h.owns hj hmem)
    · have hcopyApart : c + 12 ≠ array := fun he => (List.nodup_cons.mp howns₂.nodup).1
        (List.mem_map.mpr ⟨_, List.mem_cons_of_mem _ array_mem_regions, he.symm⟩)
      rw [hlinked.head]
      refine ⟨rfl, ⟨Nat.succ_ne_zero _, hlinked.key, hlinked.value, ?_⟩, ?_⟩
      · exact StringAt.same hcopy (hregions _ List.mem_cons_self hcopyApart)
      · rw [hlinked.next, load32_same harray (by omega) (by omega)]
        exact (h.tableAt.chains i hi').congr fun r hmem =>
          hkeptRegions r (chain_mem_regions hi' hmem) (chain_ne_array h.owns hi' hmem)

end Insertions

section Removals

variable {lo hi table array n key i : ℕ} {heap : Heap} {bs : List Block} {others : Finset ℕ}
  {nodes : ℕ → List Node} {text : CString} {e p : Node} {pre post : List Node}

/-- The memory after the store that takes `e` out of the chain, behind the entry at `prev`. -/
def unlinked (m : Bytes) (table i prev : ℕ) (e : Node) : Bytes :=
  if prev ≠ 0 then setEntryNext m prev (nextOf m e.addr)
  else store32 m (bucketAt m table i) (nextOf m e.addr)

theorem Holds.unlink_first (h : Holds lo hi heap bs others table array n nodes)
    (hr : HeapRange lo hi) (hi' : i < n) (hnodes : nodes i = e :: post) {m' : Bytes}
    (hm' : m' = unlinked heap.mem table i 0 e) :
    Owns lo hi { heap with mem := m' } bs others (tableRegions table array n nodes) ∧
      keyOf m' e.addr = e.copy ∧
      TableAt m' table array n (Function.update nodes i post) := by
  rw [unlinked, if_neg (by simp), h.bucket_address hr hi'] at hm'
  subst hm'
  have hchain := h.tableAt.chains i hi'
  rw [hnodes] at hchain
  obtain ⟨-, he, hpost⟩ := hchain
  have hoff : ∀ x, x < array ∨ array + 4 * n ≤ x →
      store32 heap.mem (array + 4 * i) (nextOf heap.mem e.addr) x = heap.mem x :=
    fun x hx => store32_outside (by omega)
  have hsame := h.owns.same_elsewhere (List.Perm.swap _ _ _) hoff
  have hchains : ∀ j < n, ∀ r ∈ chainRegions (nodes j), SameBytes heap.mem
      (store32 heap.mem (array + 4 * i) (nextOf heap.mem e.addr)) r := by
    intro j hj r hmem
    apply hsame r (List.mem_cons_of_mem _ _)
    exact List.mem_flatMap.mpr ⟨j, List.mem_range.mpr hj, hmem⟩
  have hin : ∀ r ∈ nodeRegions e ++ chainRegions post, r ∈ chainRegions (nodes i) := by
    intro r hmem
    rwa [hnodes, chainRegions, List.flatMap_cons]
  refine ⟨h.owns.write_region hr array_mem_regions hoff, ?_, h.tableAt.update ?_ ?_ ?_ ?_⟩
  · have hentry := hchains i hi' (entryRegion e) (hin _ (by simp [nodeRegions]))
    exact (load32_same hentry le_rfl (by omega)).trans he.key
  · exact hsame _ List.mem_cons_self
  · exact fun j hj hji => load32_store32_apart (by omega)
  · exact fun j hj _ => hchains j hj
  · have hhead : load32 (store32 heap.mem (array + 4 * i) (nextOf heap.mem e.addr))
        (array + 4 * i) = nextOf heap.mem e.addr := load32_store32 (load32_lt _ _)
    rw [hhead]
    exact hpost.congr fun r hmem => hchains i hi' r (hin r (List.mem_append_right _ hmem))

theorem Holds.unlink_later (h : Holds lo hi heap bs others table array n nodes)
    (hr : HeapRange lo hi) (hi' : i < n) (hnodes : nodes i = pre ++ p :: e :: post) {m' : Bytes}
    (hm' : m' = unlinked heap.mem table i p.addr e) :
    Owns lo hi { heap with mem := m' } bs others (tableRegions table array n nodes) ∧
      keyOf m' e.addr = e.copy ∧
      TableAt m' table array n (Function.update nodes i (pre ++ p :: post)) := by
  have hchain := h.tableAt.chains i hi'
  rw [hnodes] at hchain
  obtain ⟨q, hpre, rfl, hp, he, hentry, hpost⟩ := chainAt_append.mp hchain
  rw [unlinked, if_pos hp.nonNull] at hm'
  subst hm'
  have hsplit := h.split hi' hnodes
  have hoff : ∀ x, x < p.addr ∨ p.addr + 12 ≤ x →
      setEntryNext heap.mem p.addr (nextOf heap.mem e.addr) x = heap.mem x :=
    fun x hx => store32_outside (by omega)
  have hsame := hsplit.same_elsewhere (List.Perm.refl _) hoff
  have hrest := fun r hr => hsame r (List.mem_cons_of_mem _ hr)
  have hregions : ∀ r ∈ chainRegions pre ++ (nodeRegions e ++ chainRegions post),
      SameBytes heap.mem (setEntryNext heap.mem p.addr (nextOf heap.mem e.addr)) r := by
    intro r hmem
    apply hrest r (mem_update_regions hi' _)
    rwa [chainRegions, List.flatMap_append, List.flatMap_cons]
  have harray := hrest _ array_mem_regions
  refine ⟨h.owns.write_region hr (chain_mem_regions hi' (mem_chainRegions.mpr
    ⟨p, by simp [hnodes], .inl rfl⟩)) hoff, ?_, h.tableAt.update ?_ ?_ ?_ ?_⟩
  · have hregion := hregions (entryRegion e) (by simp [nodeRegions])
    exact (load32_same hregion le_rfl (by omega)).trans hentry.key
  · exact hrest _ table_mem_regions
  · exact fun j hj _ => load32_same harray (by omega) (by omega)
  · exact fun j hj hji r hmem => hrest r (mem_other_regions hj hji hmem)
  · rw [load32_same harray (by omega) (by omega)]
    refine chainAt_append.mpr ⟨p.addr, hpre.congr fun r hmem => hregions r
      (List.mem_append_left _ hmem), rfl, ⟨hp.nonNull, ?_, ?_, ?_⟩, ?_⟩
    · exact (load32_store32_apart (by omega)).trans hp.key
    · exact (load32_store32_apart (by omega)).trans hp.value
    · exact StringAt.same hp.text (hsame _ List.mem_cons_self)
    · have hnext : nextOf (setEntryNext heap.mem p.addr (nextOf heap.mem e.addr)) p.addr =
          nextOf heap.mem e.addr := load32_store32 (load32_lt _ _)
      rw [hnext]
      exact hpost.congr fun r hmem => hregions r
        (List.mem_append_right _ (List.mem_append_right _ hmem))

theorem Holds.unlink (h : Holds lo hi heap bs others table array n nodes)
    (hr : HeapRange lo hi) (hi' : i < n) (hnodes : nodes i = pre ++ e :: post) {m' : Bytes}
    (hm' : m' = unlinked heap.mem table i ((pre.map Node.addr).getLastD 0) e) :
    Owns lo hi { heap with mem := m' } bs others (tableRegions table array n nodes) ∧
      keyOf m' e.addr = e.copy ∧
      TableAt m' table array n (Function.update nodes i (pre ++ post)) := by
  rcases List.eq_nil_or_concat pre with rfl | ⟨pre, p, rfl⟩
  · exact h.unlink_first hr hi' hnodes hm'
  · simp only [List.concat_eq_append, List.append_assoc, List.cons_append, List.nil_append,
      List.map_append, List.map_cons, List.map_nil, List.getLastD_concat] at hnodes hm' ⊢
    exact h.unlink_later hr hi' hnodes hm'

theorem Holds.remove_absent (h : Holds lo hi heap bs others table array n nodes)
    (hr : HeapRange lo hi) (hn : 0 < n) (hkey : KeyAt lo hi heap key text)
    (hindex : HashTable.hashFunction text % n = i)
    (hother : ∀ f ∈ nodes i, f.entry.key ≠ text) : hashTableRemove heap table key = some heap := by
  have hi' : i < n := hindex ▸ Nat.mod_lt _ hn
  obtain ⟨prev, hsearch⟩ := h.absent hr hi' hkey hother
  rw [hashTableRemove, if_neg (h.accepted hkey)]
  simp only [h.index hn hkey, hindex, hsearch, Option.bind_eq_bind, Option.bind_some, if_true]
  rfl

theorem Holds.remove_present (h : Holds lo hi heap bs others table array n nodes)
    (hr : HeapRange lo hi) (hn : 0 < n) (hkey : KeyAt lo hi heap key text)
    (hindex : HashTable.hashFunction text % n = i) (hnodes : nodes i = pre ++ e :: post)
    (hpre : ∀ f ∈ pre, f.entry.key ≠ text) (he : e.entry.key = text) :
    ∃ heap', hashTableRemove heap table key = some heap' ∧
      Holds lo hi heap' (release 12 (e.addr - 12) (release 12 (e.copy - 12) bs)) others table
        array n (Function.update nodes i (pre ++ post)) := by
  have hi' : i < n := hindex ▸ Nat.mod_lt _ hn
  have hnonNull : e.addr ≠ 0 := ((h.tableAt.chains i hi').entryAt e (by simp [hnodes])).nonNull
  obtain ⟨howns, hcopy, htableAt⟩ := h.unlink hr hi' hnodes rfl
  have hperm := tableRegions_update table array nodes pre e post hi'
  rw [← hnodes, Function.update_eq_self] at hperm
  have hboth := howns.perm (hperm.trans (List.Perm.swap _ _ _))
  obtain ⟨heap₁, hfree₁, howns₁, hkept₁⟩ := hboth.free hr
  obtain ⟨heap₂, hfree₂, howns₂, hkept₂⟩ := howns₁.free hr
  refine ⟨heap₂, ?_, howns₂, ?_⟩
  · have hsearch := h.found hr hi' hkey hnodes hpre he
    rw [hashTableRemove, if_neg (h.accepted hkey)]
    simp only [h.index hn hkey, hindex, hsearch, Option.bind_eq_bind, Option.bind_some,
      if_neg hnonNull]
    change (kfree _ (keyOf (unlinked heap.mem table i ((pre.map Node.addr).getLastD 0) e)
      e.addr)).bind _ = _
    rw [hcopy]
    exact (Option.bind_eq_some_iff).mpr ⟨heap₁, hfree₁, hfree₂⟩
  · refine htableAt.congr fun r hmem x hx hx' => ?_
    rw [hkept₂ x (howns₁.stable (List.mem_cons_of_mem _ hmem) hx hx'),
      hkept₁ x (hboth.stable (List.mem_cons_of_mem _ (List.mem_cons_of_mem _ hmem)) hx hx')]

end Removals

end HashTableOperations
