import SojebOS.CStrings
import SojebOS.KernelHeap

/-!
# The hash table in memory

The functions of `libc/hashtable.c` and `strdup` on the kernel heap. A table is the words `size`
and `buckets`, an entry the words `key`, `value` and `next`. `none` stands for a loop over memory
that does not end, and for a division by zero.
-/
namespace HashTableMemory

open ByteMemory MachineWord WhileLoop KernelHeap CStrings
open HashTable (CString charWord)

def tableSize (m : Bytes) (table : ℕ) : ℕ := load32 m table

/-- `&table->buckets[index]` -/
def bucketAt (m : Bytes) (table index : ℕ) : ℕ := u32 (load32 m (table + 4) + 4 * index)

def keyOf (m : Bytes) (entry : ℕ) : ℕ := load32 m entry
def valueOf (m : Bytes) (entry : ℕ) : ℕ := load32 m (entry + 4)
def nextOf (m : Bytes) (entry : ℕ) : ℕ := load32 m (entry + 8)

def setKey (m : Bytes) (entry v : ℕ) : Bytes := store32 m entry v
def setValue (m : Bytes) (entry v : ℕ) : Bytes := store32 m (entry + 4) v
def setEntryNext (m : Bytes) (entry v : ℕ) : Bytes := store32 m (entry + 8) v

/-- `hash = ((hash << 5) + hash) + c` -/
def hashStep (hash : ℕ) (c : UInt8) : ℕ := u32 (u32 (hash <<< 5) + hash + charWord c)

def hashBody (m : Bytes) : ℕ × ℕ → Iteration (ℕ × ℕ) ℕ
  | (str, hash) =>
    if m str ≠ 0 then .again (str + 1, hashStep hash (m str)) else .leave hash

def hashFunction (m : Bytes) (str : ℕ) : Option ℕ := run (hashBody m) wordCount (str, 5381)

/-- `hash_function(key) % table->size` -/
def indexOf (m : Bytes) (table key : ℕ) : Option ℕ := do
  let hash ← hashFunction m key
  if tableSize m table = 0 then none else some (hash % tableSize m table)

/-- The copy loop goes up byte by byte, as `memcpy` does. -/
def strdup (h : Heap) (s : ℕ) : Option (Heap × ℕ) := do
  let n ← strlen h.mem s
  let len := u32 (n + 1)
  let (h, new) ← kmalloc h len
  if new = 0 then return (h, 0)
  return ({ h with mem := memcpy h.mem new s len }, new)

/-- The memory after so many rounds of the loop that stores `NULL` in the buckets. -/
def clearBuckets (m : Bytes) (table : ℕ) : ℕ → Bytes
  | 0 => m
  | i + 1 =>
    let m := clearBuckets m table i
    store32 m (bucketAt m table i) 0

def hashTableCreate (h : Heap) (size : ℕ) : Option (Heap × ℕ) := do
  let (h, table) ← kmalloc h 8
  if table = 0 then return (h, 0)
  let h : Heap := { h with mem := store32 h.mem table size }
  let (h, buckets) ← kmalloc h (u32 (4 * size))
  let h : Heap := { h with mem := store32 h.mem (table + 4) buckets }
  if buckets = 0 then
    let h ← kfree h table
    return (h, 0)
  return ({ h with mem := clearBuckets h.mem table size }, table)

/-- A round of the loop over a chain; the state is (prev, entry). It leaves with the entry that has
the key, with `NULL`, or, if the comparison does not end, with nothing. `hash_table_insert` has no
use for `prev`. -/
def searchBody (m : Bytes) (key : ℕ) : ℕ × ℕ → Iteration (ℕ × ℕ) (Option (ℕ × ℕ))
  | (prev, entry) =>
    if entry ≠ 0 then
      match strcmp m (keyOf m entry) key with
      | none => .leave none
      | some c => if c = 0 then .leave (some (prev, entry)) else .again (entry, nextOf m entry)
    else .leave (some (prev, entry))

def search (m : Bytes) (key head : ℕ) : Option (ℕ × ℕ) :=
  (run (searchBody m key) wordCount (0, head)).join

/-- The new entry is filled in and goes to the head of the chain. -/
def linkEntry (m : Bytes) (table index newEntry copy value : ℕ) : Bytes :=
  let m := setKey m newEntry copy
  let m := setValue m newEntry value
  let m := setEntryNext m newEntry (load32 m (bucketAt m table index))
  store32 m (bucketAt m table index) newEntry

/-- `strdup` may return `NULL`, which is not looked at. -/
def hashTableInsert (h : Heap) (table key value : ℕ) : Option Heap :=
  if table = 0 ∨ key = 0 then some h
  else do
    let index ← indexOf h.mem table key
    let (_, curr) ← search h.mem key (load32 h.mem (bucketAt h.mem table index))
    if curr ≠ 0 then return { h with mem := setValue h.mem curr value }
    let (h, newEntry) ← kmalloc h 12
    if newEntry = 0 then return h
    let (h, copy) ← strdup h key
    return { h with mem := linkEntry h.mem table index newEntry copy value }

def hashTableRemove (h : Heap) (table key : ℕ) : Option Heap :=
  if table = 0 ∨ key = 0 then some h
  else do
    let index ← indexOf h.mem table key
    let (prev, entry) ← search h.mem key (load32 h.mem (bucketAt h.mem table index))
    if entry = 0 then return h
    let m :=
      if prev ≠ 0 then setEntryNext h.mem prev (nextOf h.mem entry)
      else store32 h.mem (bucketAt h.mem table index) (nextOf h.mem entry)
    let h ← kfree { h with mem := m } (keyOf m entry)
    kfree h entry

section Functions

variable {m : Bytes} {a table index newEntry copy value x : ℕ}

theorem hashFunction_string (s : CString) (hs : StringAt m a s.val)
    (hlen : s.val.length < wordCount) :
    hashFunction m a = some (HashTable.hashFunction s) := by
  have hagain : ∀ i < s.val.length,
      hashBody m (a + i, (s.val.take i).foldl hashStep 5381) =
        .again (a + (i + 1), (s.val.take (i + 1)).foldl hashStep 5381) := by
    intro i hi
    have hchar := textAt_iff.mp hs.chars i hi
    rw [hashBody, if_pos (hs.chars.ne s.property hi), hchar, List.take_succ_eq_append_getElem hi,
      List.foldl_append, Nat.add_assoc]
    rfl
  have hleave : hashBody m (a + s.val.length, (s.val.take s.val.length).foldl hashStep 5381) =
      .leave (HashTable.hashFunction s) := by
    rw [List.take_length]
    exact if_neg (not_not.mpr hs.terminator)
  exact run_path (f := fun i => (a + i, (s.val.take i).foldl hashStep 5381)) hagain hleave hlen

/-- What the stores make of an entry and of the bucket at `b`. -/
structure EntryLinked (m : Bytes) (b newEntry copy value : ℕ) (m' : Bytes) : Prop where
  key : keyOf m' newEntry = copy
  value : valueOf m' newEntry = value
  next : nextOf m' newEntry = load32 m b
  head : load32 m' b = newEntry
  other : ∀ x, (x < newEntry ∨ newEntry + 12 ≤ x) → (x < b ∨ b + 4 ≤ x) → m' x = m x

theorem linkEntry_linked {b : ℕ} (hb : bucketAt m table index = b) (hnew : newEntry < 2 ^ 32)
    (hcopy : copy < 2 ^ 32) (hvalue : value < 2 ^ 32)
    (htable : table + 8 ≤ newEntry ∨ newEntry + 12 ≤ table)
    (hbucket : b + 4 ≤ newEntry ∨ newEntry + 12 ≤ b) :
    EntryLinked m b newEntry copy value (linkEntry m table index newEntry copy value) := by
  have hkept : ∀ {m' : Bytes} {v o : ℕ}, o ≤ 8 → bucketAt m' table index = b →
      bucketAt (store32 m' (newEntry + o) v) table index = b := by
    intro m' v o ho he
    rw [← he, bucketAt, bucketAt, load32_store32_apart (by omega)]
  have hkey : bucketAt (setKey m newEntry copy) table index = b := hkept (o := 0) (by omega) hb
  have hval : bucketAt (setValue (setKey m newEntry copy) newEntry value) table index = b :=
    hkept (o := 4) (by omega) hkey
  have hnext : ∀ v, bucketAt (setEntryNext (setValue (setKey m newEntry copy) newEntry value)
      newEntry v) table index = b := fun v => hkept (o := 8) (by omega) hval
  have hlt := load32_lt m b
  simp only [linkEntry, hval, hnext]
  constructor
  all_goals simp only [keyOf, valueOf, nextOf, setKey, setValue, setEntryNext]
  · simp (disch := omega) only [load32_store32_apart, load32_store32]
  · simp (disch := omega) only [load32_store32_apart, load32_store32]
  · simp (disch := omega) only [load32_store32_apart, load32_store32]
  · simp (disch := omega) only [load32_store32]
  · intro x hx hx'
    simp (disch := omega) only [store32_outside]

end Functions

end HashTableMemory
