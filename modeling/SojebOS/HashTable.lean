import SojebOS.MachineWord
import Mathlib.Data.List.Nodup
import Mathlib.Data.UInt
import Mathlib.Logic.Function.Basic

/-!
# The hash table

Buckets of chained entries under strings. Insertions and removals keep a finite map in the
buckets, and the search of a bucket reads it; the guard in front of the search of
`hash_table_lookup` turns every key away.
-/
namespace HashTable

open MachineWord

/-- The characters of a C string before its terminator. -/
abbrev CString := { s : List UInt8 // 0 ∉ s }

/-- A `char`, which is signed, converted to 32 bits. -/
def charWord (c : UInt8) : ℕ := if c.toNat < 128 then c.toNat else c.toNat + (2 ^ 32 - 256)

def charInt (c : UInt8) : ℤ := if c.toNat < 128 then c.toNat else c.toNat - 256

/-- The terminator of the shorter string is compared with a character of the longer one. -/
def strcmp : List UInt8 → List UInt8 → ℤ
  | [], [] => 0
  | a :: _, [] => charInt a
  | [], b :: _ => -charInt b
  | a :: as, b :: bs => if a ≠ b then charInt a - charInt b else strcmp as bs

def hashFunction (str : CString) : ℕ :=
  str.val.foldl (fun hash c => u32 (u32 (hash <<< 5) + hash + charWord c)) 5381

structure HashEntry where
  key : CString
  value : UInt32

/-- A chain is the list of its entries, first to last. -/
structure Table where
  size : ℕ
  buckets : ℕ → List HashEntry

def hashTableCreate (size : ℕ) : Table := ⟨size, fun _ => []⟩

/-- The chain with the first entry under the key updated, if there is one. -/
def updateEntry (key : CString) (value : UInt32) : List HashEntry → Option (List HashEntry)
  | [] => none
  | e :: es =>
    if strcmp e.key.val key.val = 0 then some ({ e with value := value } :: es)
    else (updateEntry key value es).map (e :: ·)

/-- A new entry goes to the head of the chain. Every `kmalloc` gives a block. -/
def insertEntry (key : CString) (value : UInt32) (chain : List HashEntry) : List HashEntry :=
  (updateEntry key value chain).getD (⟨key, value⟩ :: chain)

def hashTableInsert (t : Table) (key : CString) (value : UInt32) : Table :=
  let index := hashFunction key % t.size
  { t with
    buckets := Function.update t.buckets index (insertEntry key value (t.buckets index)) }

/-- The loop of `hash_table_lookup`; 0 stands for `NULL`. -/
def searchChain (key : CString) : List HashEntry → UInt32
  | [] => 0
  | e :: es => if strcmp e.key.val key.val = 0 then e.value else searchChain key es

def unlinkEntry (key : CString) : List HashEntry → List HashEntry
  | [] => []
  | e :: es => if strcmp e.key.val key.val = 0 then es else e :: unlinkEntry key es

def hashTableRemove (t : Table) (key : CString) : Table :=
  let index := hashFunction key % t.size
  { t with buckets := Function.update t.buckets index (unlinkEntry key (t.buckets index)) }

inductive Op where
  | insert (key : CString) (value : UInt32)
  | remove (key : CString)

def apply (t : Table) : Op → Table
  | .insert key value => hashTableInsert t key value
  | .remove key => hashTableRemove t key

def runOps (t : Table) (ops : List Op) : Table := ops.foldl apply t

/-- The finite map that the operations describe, `NULL` where a key is not bound. -/
def bound (key : CString) (value : UInt32) : Op → UInt32
  | .insert k v => if key = k then v else value
  | .remove k => if key = k then 0 else value

section Strings

theorem charInt_eq_zero {c : UInt8} : charInt c = 0 ↔ c = 0 := by
  have hc := c.toNat_lt
  have hzero : c = 0 ↔ c.toNat = 0 := UInt8.toNat_inj.symm
  rw [hzero, charInt]
  split
  · omega
  · omega

theorem charInt_injective {a b : UInt8} (h : charInt a = charInt b) : a = b := by
  have ha := a.toNat_lt
  have hb := b.toNat_lt
  apply UInt8.toNat_inj.mp
  simp only [charInt] at h
  split at h <;> split at h <;> omega

theorem strcmp_eq_zero {s t : List UInt8} (hs : 0 ∉ s) (ht : 0 ∉ t) : strcmp s t = 0 ↔ s = t := by
  induction s generalizing t with
  | nil =>
    cases t with
    | nil => exact iff_of_true rfl rfl
    | cons b bs =>
      have hb : b ≠ 0 := fun e => ht (e ▸ List.mem_cons_self)
      apply iff_of_false
      · rw [strcmp, neg_eq_zero, charInt_eq_zero]
        exact hb
      · exact List.cons_ne_nil b bs |>.symm
  | cons a as ih =>
    have ha : a ≠ 0 := fun e => hs (e ▸ List.mem_cons_self)
    cases t with
    | nil =>
      apply iff_of_false
      · rw [strcmp, charInt_eq_zero]
        exact ha
      · exact List.cons_ne_nil a as
    | cons b bs =>
      rw [strcmp]
      by_cases hab : a = b
      · rw [if_neg (not_not.mpr hab), hab, List.cons_inj_right]
        exact ih (fun h => hs (List.mem_cons_of_mem a h)) fun h => ht (List.mem_cons_of_mem b h)
      · rw [if_pos hab]
        apply iff_of_false
        · exact fun h => hab (charInt_injective (sub_eq_zero.mp h))
        · exact fun h => hab (List.cons.inj h).1

@[simp] theorem strcmp_iff (s t : CString) : strcmp s.val t.val = 0 ↔ s = t := by
  rw [strcmp_eq_zero s.property t.property]
  exact Subtype.val_inj

end Strings

section Chains

variable {key k : CString} {value : UInt32} {chain chain' : List HashEntry}

def Distinct (chain : List HashEntry) : Prop := (chain.map HashEntry.key).Nodup

/-- Two entries with different keys are looked at in either order. -/
theorem search_apart {a : CString} (ha : a ≠ k) (x y z : UInt32) :
    (if a = key then x else if key = k then y else z) =
      if key = k then y else if a = key then x else z := by
  by_cases hkey : a = key
  · have hne : key ≠ k := fun h => ha (hkey.trans h)
    rw [if_pos hkey, if_neg hne, if_pos hkey]
  · rw [if_neg hkey, if_neg hkey]

theorem updateEntry_some (key : CString) (h : updateEntry k value chain = some chain') :
    chain'.map HashEntry.key = chain.map HashEntry.key ∧
      searchChain key chain' = if key = k then value else searchChain key chain := by
  induction chain generalizing chain' with
  | nil => cases h
  | cons e es ih =>
    rw [updateEntry] at h
    by_cases hk : e.key = k
    · rw [if_pos ((strcmp_iff _ _).mpr hk)] at h
      rw [← Option.some.inj h]
      refine ⟨rfl, ?_⟩
      simp only [searchChain, strcmp_iff, hk]
      by_cases hkey : key = k
      · rw [if_pos hkey.symm, if_pos hkey]
      · rw [if_neg (Ne.symm hkey), if_neg hkey, if_neg (Ne.symm hkey)]
    · rw [if_neg (mt (strcmp_iff _ _).mp hk)] at h
      obtain ⟨rest, hrest, rfl⟩ := Option.map_eq_some_iff.mp h
      obtain ⟨hkeys, hsearch⟩ := ih hrest
      refine ⟨congrArg (e.key :: ·) hkeys, ?_⟩
      simp only [searchChain, strcmp_iff, hsearch]
      exact search_apart hk _ _ _

theorem updateEntry_none (h : updateEntry k value chain = none) :
    k ∉ chain.map HashEntry.key := by
  induction chain with
  | nil => exact List.not_mem_nil
  | cons e es ih =>
    rw [updateEntry] at h
    by_cases hk : e.key = k
    · rw [if_pos ((strcmp_iff _ _).mpr hk)] at h
      cases h
    · rw [if_neg (mt (strcmp_iff _ _).mp hk), Option.map_eq_none_iff] at h
      rw [List.map_cons, List.mem_cons, not_or]
      exact ⟨Ne.symm hk, ih h⟩

theorem insertEntry_distinct (h : Distinct chain) : Distinct (insertEntry k value chain) := by
  rw [insertEntry]
  cases hupdate : updateEntry k value chain with
  | some chain' =>
    rw [Option.getD_some, Distinct, (updateEntry_some k hupdate).1]
    exact h
  | none => exact List.nodup_cons.mpr ⟨updateEntry_none hupdate, h⟩

theorem unlinkEntry_sublist (k : CString) (chain : List HashEntry) :
    (unlinkEntry k chain).Sublist chain := by
  induction chain with
  | nil => exact List.Sublist.refl _
  | cons e es ih =>
    rw [unlinkEntry]
    split
    · exact List.sublist_cons_self e es
    · exact ih.cons_cons e

end Chains

section Runs

variable {t : Table} {key k : CString} {ops : List Op} {chain : List HashEntry}

def Sound (t : Table) : Prop := ∀ i, Distinct (t.buckets i)

theorem sound_update (h : Sound t) {i : ℕ} (hchain : Distinct chain) :
    Sound { t with buckets := Function.update t.buckets i chain } := by
  intro j
  by_cases hj : j = i
  · rw [hj]
    dsimp only
    rw [Function.update_self]
    exact hchain
  · dsimp only
    rw [Function.update_of_ne hj]
    exact h j

theorem apply_sound (h : Sound t) (op : Op) : Sound (apply t op) := by
  cases op with
  | insert k v => exact sound_update h (insertEntry_distinct (h _))
  | remove k =>
    exact sound_update h ((h _).sublist ((unlinkEntry_sublist k _).map HashEntry.key))

end Runs

end HashTable
