import SojebOS.HashTableMemory
import SojebOS.KernelHeapClients
import Mathlib.Data.List.Perm.Basic
import Mathlib.Data.List.Flatten

/-!
# Chains of entries

What a table in memory stands for: a chain of entries for each bucket. The table, the array of
buckets, the entries and their copies of the keys are regions of the heap, and the chains depend on
the bytes of these regions only.
-/
namespace HashTableChains

open ByteMemory MachineWord WhileLoop CStrings KernelHeapClients HashTableMemory
open HashTable (CString HashEntry)

/-- An entry of a chain, with the pointer to its copy of the key. -/
structure Node where
  addr : ℕ
  copy : ℕ
  entry : HashEntry

def Node.withValue (e : Node) (value : UInt32) : Node :=
  { e with entry := { e.entry with value := value } }

structure EntryAt (m : Bytes) (e : Node) : Prop where
  nonNull : e.addr ≠ 0
  key : keyOf m e.addr = e.copy
  value : valueOf m e.addr = e.entry.value.toNat
  text : StringAt m e.copy e.entry.key.val

/-- Following `next` from `p` meets the given entries and then `q`. -/
def ChainAt (m : Bytes) : ℕ → List Node → ℕ → Prop
  | p, [], q => p = q
  | p, e :: es, q => p = e.addr ∧ EntryAt m e ∧ ChainAt m (nextOf m e.addr) es q

/-- A table of `n` chains, with its array of buckets at `array`. -/
structure TableAt (m : Bytes) (table array n : ℕ) (nodes : ℕ → List Node) : Prop where
  size : tableSize m table = n
  buckets : load32 m (table + 4) = array
  chains : ∀ i < n, ChainAt m (load32 m (array + 4 * i)) (nodes i) 0

def entryRegion (e : Node) : Region := ⟨e.addr, 12⟩
def copyRegion (e : Node) : Region := ⟨e.copy, e.entry.key.val.length + 1⟩
def nodeRegions (e : Node) : List Region := [entryRegion e, copyRegion e]

def chainRegions (es : List Node) : List Region := es.flatMap nodeRegions

def tableRegions (table array n : ℕ) (nodes : ℕ → List Node) : List Region :=
  ⟨table, 8⟩ :: ⟨array, 4 * n⟩ :: (List.range n).flatMap fun i => chainRegions (nodes i)

section Chains

variable {m m' : Bytes} {p q n i table array : ℕ} {e : Node} {es fs pre post : List Node}
  {nodes : ℕ → List Node}

theorem chainAt_append : ChainAt m p (es ++ fs) q ↔ ∃ r, ChainAt m p es r ∧ ChainAt m r fs q := by
  induction es generalizing p with
  | nil => exact ⟨fun h => ⟨p, rfl, h⟩, fun ⟨_, h, h'⟩ => h ▸ h'⟩
  | cons e es ih =>
    simp only [List.cons_append, ChainAt, ih]
    constructor
    · rintro ⟨hp, he, r, h, h'⟩
      exact ⟨r, ⟨hp, he, h⟩, h'⟩
    · rintro ⟨r, ⟨hp, he, h⟩, h'⟩
      exact ⟨hp, he, r, h, h'⟩

theorem load32_same (h : SameBytes m m' ⟨p, n⟩) {a : ℕ} (hlo : p ≤ a) (hhi : a + 4 ≤ p + n) :
    load32 m' a = load32 m a :=
  load32_congr fun x hx hx' => h x (hlo.trans hx) (by simp only; omega)

theorem StringAt.same {s : List UInt8} (h : StringAt m p s)
    (hm : SameBytes m m' ⟨p, s.length + 1⟩) : StringAt m' p s := by
  refine h.congr fun x hx hx' => hm x hx ?_
  rwa [List.length_append] at hx'

theorem EntryAt.congr (h : EntryAt m e) (hentry : SameBytes m m' (entryRegion e))
    (hcopy : SameBytes m m' (copyRegion e)) : EntryAt m' e := by
  refine ⟨h.nonNull, ?_, ?_, ?_⟩
  · exact (load32_same hentry le_rfl (by omega)).trans h.key
  · exact (load32_same hentry (by omega) (by omega)).trans h.value
  · exact StringAt.same h.text hcopy

theorem nextOf_setValue (m : Bytes) (p v : ℕ) : nextOf (setValue m p v) p = nextOf m p :=
  load32_store32_apart (by omega)

theorem EntryAt.setValue (h : EntryAt m e) {value : UInt32}
    (hcopy : SameBytes m (setValue m e.addr value.toNat) (copyRegion e)) :
    EntryAt (HashTableMemory.setValue m e.addr value.toNat) (e.withValue value) := by
  refine ⟨h.nonNull, ?_, load32_store32 value.toNat_lt, StringAt.same h.text hcopy⟩
  exact (load32_store32_apart (a := e.addr + 4) (b := e.addr) (by omega)).trans h.key

theorem ChainAt.congr (h : ChainAt m p es q) (hm : ∀ r ∈ chainRegions es, SameBytes m m' r) :
    ChainAt m' p es q := by
  induction es generalizing p with
  | nil => exact h
  | cons e es ih =>
    obtain ⟨hp, he, hrest⟩ := h
    have hregion : ∀ r ∈ nodeRegions e ++ chainRegions es, SameBytes m m' r := hm
    have hentry := hregion (entryRegion e) (by simp [nodeRegions])
    have hcopy := hregion (copyRegion e) (by simp [nodeRegions])
    refine ⟨hp, he.congr hentry hcopy, ?_⟩
    rw [show nextOf m' e.addr = nextOf m e.addr from
      load32_same hentry (by omega) (by omega)]
    exact ih hrest fun r hr => hregion r (List.mem_append_right _ hr)

theorem ChainAt.entryAt (h : ChainAt m p es q) : ∀ e ∈ es, EntryAt m e := by
  induction es generalizing p with
  | nil => exact fun e he => absurd he List.not_mem_nil
  | cons f es ih =>
    intro e he
    rcases List.mem_cons.mp he with rfl | he
    · exact h.2.1
    · exact ih h.2.2 e he

theorem EntryAt.unique {f : Node} (he : EntryAt m e) (hf : EntryAt m f) (ha : e.addr = f.addr) :
    e = f := by
  obtain ⟨addr, copy, key, value⟩ := e
  obtain ⟨addr', copy', key', value'⟩ := f
  simp only at ha
  subst ha
  have hcopy : copy = copy' := he.key.symm.trans hf.key
  subst hcopy
  have hvalue : value = value' := UInt32.toNat_inj.mp (he.value.symm.trans hf.value)
  have hkey : key = key' := stringAt_unique he.text hf.text
  rw [hvalue, hkey]

theorem chainAt_unique (he : ChainAt m p es 0) (hf : ChainAt m p fs 0) : es = fs := by
  induction es generalizing p fs with
  | nil =>
    cases fs with
    | nil => rfl
    | cons f fs => exact absurd (hf.1.symm.trans he) hf.2.1.nonNull
  | cons e es ih =>
    cases fs with
    | nil => exact absurd (he.1.symm.trans hf) he.2.1.nonNull
    | cons f fs =>
      obtain rfl := he.2.1.unique hf.2.1 (he.1.symm.trans hf.1)
      rw [ih he.2.2 hf.2.2]

theorem tableAt_unique {array' : ℕ} {nodes' : ℕ → List Node} (h : TableAt m table array n nodes)
    (h' : TableAt m table array' n nodes') : ∀ i < n, nodes i = nodes' i := by
  intro i hi
  obtain rfl : array = array' := h.buckets.symm.trans h'.buckets
  exact chainAt_unique (h.chains i hi) (h'.chains i hi)

theorem mem_tableRegions {r : Region} : r ∈ tableRegions table array n nodes ↔
    r = ⟨table, 8⟩ ∨ r = ⟨array, 4 * n⟩ ∨ ∃ i < n, r ∈ chainRegions (nodes i) := by
  simp only [tableRegions, List.mem_cons, List.mem_flatMap, List.mem_range]

theorem TableAt.update (h : TableAt m table array n nodes)
    (htable : SameBytes m m' ⟨table, 8⟩)
    (hbuckets : ∀ j < n, j ≠ i → load32 m' (array + 4 * j) = load32 m (array + 4 * j))
    (hchains : ∀ j < n, j ≠ i → ∀ r ∈ chainRegions (nodes j), SameBytes m m' r)
    (hchain : ChainAt m' (load32 m' (array + 4 * i)) es 0) :
    TableAt m' table array n (Function.update nodes i es) := by
  refine ⟨?_, ?_, fun j hj => ?_⟩
  · exact (load32_same htable le_rfl (by omega)).trans h.size
  · exact (load32_same htable (by omega) (by omega)).trans h.buckets
  · by_cases hji : j = i
    · rw [hji, Function.update_self]
      exact hchain
    · rw [Function.update_of_ne hji, hbuckets j hj hji]
      exact (h.chains j hj).congr (hchains j hj hji)

theorem TableAt.congr (h : TableAt m table array n nodes)
    (hm : ∀ r ∈ tableRegions table array n nodes, SameBytes m m' r) :
    TableAt m' table array n nodes := by
  have htable := hm ⟨table, 8⟩ (mem_tableRegions.mpr (.inl rfl))
  have harray := hm ⟨array, 4 * n⟩ (mem_tableRegions.mpr (.inr (.inl rfl)))
  refine ⟨?_, ?_, fun j hj => ?_⟩
  · exact (load32_same htable le_rfl (by omega)).trans h.size
  · exact (load32_same htable (by omega) (by omega)).trans h.buckets
  · rw [load32_same harray (by omega) (by omega)]
    exact (h.chains j hj).congr fun r hr => hm r (mem_tableRegions.mpr (.inr (.inr ⟨j, hj, hr⟩)))

theorem tableRegions_update (table array : ℕ) (nodes : ℕ → List Node) (pre : List Node) (e : Node)
    (post : List Node) (hi : i < n) :
    (tableRegions table array n (Function.update nodes i (pre ++ e :: post))).Perm
      (nodeRegions e ++ tableRegions table array n (Function.update nodes i (pre ++ post))) := by
  have hchain : (chainRegions (pre ++ e :: post)).Perm
      (nodeRegions e ++ chainRegions (pre ++ post)) := by
    simp only [chainRegions, List.flatMap_append, List.flatMap_cons]
    exact List.perm_append_comm_assoc _ _ _
  have hother : ∀ {l : List ℕ} (es), i ∉ l → (l.flatMap fun j =>
      chainRegions (Function.update nodes i es j)) = l.flatMap fun j => chainRegions (nodes j) := by
    intro l es hl
    apply List.flatMap_congr
    intro j hj
    have hji : j ≠ i := by
      rintro rfl
      exact hl hj
    rw [Function.update_of_ne hji]
  have hrange : ∀ l : List ℕ, l.Nodup → i ∈ l →
      (l.flatMap fun j => chainRegions (Function.update nodes i (pre ++ e :: post) j)).Perm
        (nodeRegions e ++
          l.flatMap fun j => chainRegions (Function.update nodes i (pre ++ post) j)) := by
    intro l hl hmem
    induction l with
    | nil => exact absurd hmem List.not_mem_nil
    | cons j l ih =>
      obtain ⟨hj, hl⟩ := List.nodup_cons.mp hl
      rw [List.flatMap_cons, List.flatMap_cons]
      by_cases hji : j = i
      · subst hji
        rw [hother _ hj, hother _ hj, Function.update_self, Function.update_self,
          ← List.append_assoc]
        exact hchain.append_right _
      · have hin : i ∈ l := (List.mem_cons.mp hmem).resolve_left fun he => hji he.symm
        rw [Function.update_of_ne hji, Function.update_of_ne hji]
        exact ((ih hl hin).append_left _).trans (List.perm_append_comm_assoc _ _ _)
  have hall := hrange (List.range n) List.nodup_range (List.mem_range.mpr hi)
  have hswap := List.perm_append_comm_assoc (nodeRegions e)
    [⟨table, 8⟩, ⟨array, 4 * n⟩] ((List.range n).flatMap fun j =>
      chainRegions (Function.update nodes i (pre ++ post) j))
  exact ((hall.cons _).cons _).trans hswap.symm

theorem mem_update_regions {r : Region} (hi : i < n) (hr : r ∈ chainRegions es) :
    r ∈ tableRegions table array n (Function.update nodes i es) :=
  mem_tableRegions.mpr (.inr (.inr ⟨i, hi, by rwa [Function.update_self]⟩))

theorem mem_other_regions {r : Region} {j : ℕ} (hj : j < n) (hji : j ≠ i)
    (hr : r ∈ chainRegions (nodes j)) :
    r ∈ tableRegions table array n (Function.update nodes i es) :=
  mem_tableRegions.mpr (.inr (.inr ⟨j, hj, by rwa [Function.update_of_ne hji]⟩))

theorem table_mem_regions : (⟨table, 8⟩ : Region) ∈ tableRegions table array n nodes :=
  mem_tableRegions.mpr (.inl rfl)

theorem array_mem_regions : (⟨array, 4 * n⟩ : Region) ∈ tableRegions table array n nodes :=
  mem_tableRegions.mpr (.inr (.inl rfl))

end Chains

section Search

variable {m : Bytes} {key head prev : ℕ} {text : CString} {e : Node} {pre post es : List Node}

theorem searchBody_entry (prev : ℕ) (hkey : StringAt m key text.val) (he : EntryAt m e)
    (hlen : e.entry.key.val.length < wordCount) : searchBody m key (prev, e.addr) =
      if e.entry.key = text then .leave (some (prev, e.addr))
      else .again (e.addr, nextOf m e.addr) := by
  rw [searchBody, if_pos he.nonNull, he.key, strcmp_strings e.entry.key text he.text hkey hlen]
  by_cases heq : e.entry.key = text
  · rw [if_pos heq]
    exact if_pos ((HashTable.strcmp_iff _ _).mpr heq)
  · rw [if_neg heq]
    exact if_neg (mt (HashTable.strcmp_iff _ _).mp heq)

theorem search_past {r : Option (ℕ × ℕ)} (hkey : StringAt m key text.val) {rest n : ℕ}
    (hlens : ∀ e ∈ es, e.entry.key.val.length < wordCount) (hother : ∀ e ∈ es, e.entry.key ≠ text)
    (hchain : ChainAt m head es rest)
    (hend : run (searchBody m key) n ((es.map Node.addr).getLastD prev, rest) = some r) :
    run (searchBody m key) (es.length + n) (prev, head) = some r := by
  induction es generalizing head prev with
  | nil =>
    obtain rfl : head = rest := hchain
    rwa [List.length_nil, Nat.zero_add]
  | cons e es ih =>
    obtain ⟨rfl, he, hchain⟩ := hchain
    have hround := searchBody_entry prev hkey he (hlens e List.mem_cons_self)
    rw [if_neg (hother e List.mem_cons_self)] at hround
    rw [List.length_cons, Nat.add_right_comm, run_again hround]
    rw [List.map_cons, List.getLastD_cons] at hend
    exact ih (fun f hf => hlens f (List.mem_cons_of_mem e hf))
      (fun f hf => hother f (List.mem_cons_of_mem e hf)) hchain hend

theorem search_found (hkey : StringAt m key text.val)
    (hlens : ∀ f ∈ pre ++ e :: post, f.entry.key.val.length < wordCount)
    (hother : ∀ f ∈ pre, f.entry.key ≠ text) (he : e.entry.key = text)
    (hchain : ChainAt m head (pre ++ e :: post) 0) (hcount : pre.length < wordCount) :
    search m key head = some ((pre.map Node.addr).getLastD 0, e.addr) := by
  obtain ⟨r, hpre, rfl, hentry, -⟩ := chainAt_append.mp hchain
  have hround := searchBody_entry ((pre.map Node.addr).getLastD 0) hkey hentry
    (hlens e (by simp))
  rw [if_pos he] at hround
  have hrun := search_past hkey (fun f hf => hlens f (by simp [hf])) hother hpre
    (run_leave hround (wordCount - pre.length - 1))
  rw [search, show wordCount = pre.length + (wordCount - pre.length - 1 + 1) by omega, hrun]
  rfl

theorem search_absent (hkey : StringAt m key text.val)
    (hlens : ∀ f ∈ es, f.entry.key.val.length < wordCount)
    (hother : ∀ f ∈ es, f.entry.key ≠ text) (hchain : ChainAt m head es 0)
    (hcount : es.length < wordCount) : ∃ prev, search m key head = some (prev, 0) := by
  refine ⟨(es.map Node.addr).getLastD 0, ?_⟩
  have hround : searchBody m key ((es.map Node.addr).getLastD 0, 0) =
      .leave (some ((es.map Node.addr).getLastD 0, 0)) := by
    rw [searchBody, if_neg fun h => h rfl]
  have hrun := search_past hkey hlens hother hchain
    (run_leave hround (wordCount - es.length - 1))
  rw [search, show wordCount = es.length + (wordCount - es.length - 1 + 1) by omega, hrun]
  rfl

end Search

end HashTableChains
