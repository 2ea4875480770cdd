import SojebOS.Fat32Volume

/-!
# Storing, searching and deleting directory entries

A slot is stored and read back through its sector; here both are seen as operations at
the address of the slot. Freeing a chain clears its cells and touches nothing else.
-/
namespace Fat32Entries

open ByteMemory MachineWord WhileLoop LinkedChain
open Fat32Disk Fat32Directory Fat32Files Fat32Tree Fat32Layout Fat32Volume

section Names

variable {s : List UInt8} {n : ℕ}

theorem copyName_length (n : ℕ) (s : List UInt8) : (copyName n s).1.length ≤ n := by
  induction n generalizing s with
  | zero => simp [copyName]
  | succ n ih =>
    cases s with
    | nil => simp [copyName]
    | cons c s =>
      simp only [copyName]
      split_ifs
      · simp
      · simpa using ih s

theorem copyExtension_length (n : ℕ) (s : List UInt8) : (copyExtension n s).length ≤ n := by
  induction n generalizing s with
  | zero => simp [copyExtension]
  | succ n ih =>
    cases s with
    | nil => simp [copyExtension]
    | cons c s =>
      simp only [copyExtension]
      split_ifs
      · simp
      · simpa using ih s

theorem pad_length (h : s.length ≤ n) : (pad n s).length = n := by
  rw [pad, List.length_append, List.length_replicate]
  omega

theorem formatFilename_length (s : List UInt8) : (formatFilename s).length = 11 := by
  unfold formatFilename
  split_ifs
  · exact pad_length (by simp)
  · exact pad_length (by simp)
  · simp only [List.length_append]
    rw [pad_length (copyName_length 8 s), pad_length]
    split_ifs
    · exact copyExtension_length 3 _
    · simp

theorem toUpper_eq_iff {c k : UInt8} (h0 : ¬ (0x41 ≤ k ∧ k ≤ 0x5A))
    (h1 : ¬ (0x61 ≤ k ∧ k ≤ 0x7A)) : toUpper c = k ↔ c = k := by
  simp only [UInt8.le_iff_toNat_le] at h0 h1
  unfold toUpper
  simp only [UInt8.le_iff_toNat_le, ← UInt8.toNat_inj]
  have hc := c.toNat_lt
  have hk := k.toNat_lt
  split_ifs with h
  · rw [UInt8.toNat_sub]
    simp at h h0 h1 ⊢
    omega
  · rfl

theorem formatFilename_head (s : List UInt8) :
    (formatFilename s).getD 0 0 = space ∨ (formatFilename s).getD 0 0 = dot ∨
      ∃ c t, s = c :: t ∧ c ≠ 0 ∧ (formatFilename s).getD 0 0 = toUpper c := by
  unfold formatFilename
  split_ifs
  · exact .inr (.inl rfl)
  · exact .inr (.inl rfl)
  · cases s with
    | nil => exact .inl rfl
    | cons c t =>
      by_cases h : c = dot ∨ c = 0
      · simp only [copyName, h, ↓reduceIte]
        exact .inl rfl
      · simp only [copyName, h, ↓reduceIte]
        rw [not_or] at h
        exact .inr (.inr ⟨c, t, rfl, h.2, rfl⟩)

theorem formatFilename_ne_zero (s : List UInt8) : (formatFilename s).getD 0 0 ≠ 0 := by
  rcases formatFilename_head s with h | h | ⟨c, t, -, hc, h⟩
  · rw [h]
    decide
  · rw [h]
    decide
  · rw [h, Ne, toUpper_eq_iff (by decide) (by decide)]
    exact hc

theorem formatFilename_ne_deleted (h : s.getD 0 0 ≠ deletedMark) :
    (formatFilename s).getD 0 0 ≠ deletedMark := by
  rcases formatFilename_head s with h' | h' | ⟨c, t, rfl, -, h'⟩
  · rw [h']
    decide
  · rw [h']
    decide
  · rw [h', Ne, toUpper_eq_iff (by decide) (by decide)]
    exact h

theorem memcmp_eq_zero_iff {a b : List UInt8} (h : a.length = b.length) :
    memcmp a b = 0 ↔ a = b := by
  induction a generalizing b with
  | nil =>
    cases b with
    | nil => simp [memcmp]
    | cons => simp at h
  | cons x a ih =>
    cases b with
    | nil => simp at h
    | cons y b =>
      simp only [memcmp]
      by_cases hxy : x = y
      · simp only [hxy, ne_eq, not_true_eq_false, ↓reduceIte, List.cons.injEq, true_and]
        exact ih (by simpa using h)
      · simp only [ne_eq, hxy, not_false_eq_true, ↓reduceIte, List.cons.injEq, false_and,
          iff_false]
        have hne : x.toNat ≠ y.toNat := fun hn => hxy (UInt8.toNat_inj.mp hn)
        have hx := x.toNat_lt
        have hy := y.toNat_lt
        unfold charValue
        split_ifs <;> omega

end Names

section Reading

variable {d d' : Bytes} {p q : ℕ}

theorem readEntry_diskRead (d : Bytes) (s o : ℕ) :
    readEntry (diskRead d s) o = readEntry d (512 * s + o) := by
  simp only [readEntry, diskRead, load16_window, load32_window, window, Nat.add_assoc]

theorem readEntry_congr (h : Set.EqOn d' d (slotBytes p)) : readEntry d' p = readEntry d p := by
  have hb : ∀ x, p ≤ x → x < p + 32 → d' x = d x := fun x h1 h2 => h ⟨h1, h2⟩
  unfold readEntry
  rw [load16_congr fun x _ _ => hb x (by omega) (by omega),
    load16_congr (a := p + 26) fun x _ _ => hb x (by omega) (by omega),
    load32_congr fun x _ _ => hb x (by omega) (by omega), hb (p + 11) (by omega) (by omega)]
  congr 1
  refine List.map_congr_left fun j hj => ?_
  have := List.mem_range.mp hj
  exact hb _ (by omega) (by omega)

theorem readEntry_name_length (d : Bytes) (p : ℕ) : (readEntry d p).name.length = 11 := by
  simp [readEntry]

theorem live_congr (h : Set.EqOn d' d (slotBytes p)) : Live d' p ↔ Live d p := by
  rw [Live, Live, h (mem_slotBytes_self p)]

theorem named_congr (h : Set.EqOn d' d (slotBytes p)) : Named d' p ↔ Named d p := by
  constructor <;> rintro ⟨hl, hs⟩
  · exact ⟨(live_congr h).mp hl, readEntry_congr h ▸ hs⟩
  · exact ⟨(live_congr h).mpr hl, (readEntry_congr h).symm ▸ hs⟩

theorem slot_addr (h : 32 ∣ p) : 512 * (p / 512) + 32 * (p % 512 / 32) = p := by omega

theorem diskRead_slot (h : 32 ∣ p) : diskRead d (p / 512) (32 * (p % 512 / 32)) = d p := by
  rw [diskRead_apply, slot_addr h]

theorem readEntry_slot (h : 32 ∣ p) :
    readEntry (diskRead d (p / 512)) (32 * (p % 512 / 32)) = readEntry d p := by
  rw [readEntry_diskRead, slot_addr h]

end Reading

section Storing

variable {d : Bytes} {p x : ℕ} {name : List UInt8} {attr : UInt8} {first size : ℕ}

theorem fillEntry_window (m : Bytes) (b off : ℕ) (name : List UInt8) (attr : UInt8)
    (first size : ℕ) :
    fillEntry (window m b) off name attr first size =
      window (fillEntry m (b + off) name attr first size) b := by
  simp only [fillEntry, copyIn_window, store8_window, store16_window, store32_window,
    Nat.add_assoc]

theorem fillEntry_outside (h : x ∉ slotBytes p) :
    fillEntry d p name attr first size x = d x := by
  simp only [slotBytes, Set.mem_Ico] at h
  unfold fillEntry
  rw [store32_outside (by omega), store16_outside (by omega), store16_outside (by omega),
    store8_other (by omega), copyIn_outside (by omega)]

theorem storeEntry_eq (h : 32 ∣ p) :
    storeEntry d (p / 512, p % 512 / 32) name attr first size =
      fillEntry d p name attr first size := by
  rw [storeEntry, diskRead, fillEntry_window, slot_addr h]
  apply diskWrite_window
  intro x hx
  apply fillEntry_outside
  simp only [slotBytes, Set.mem_Ico]
  omega

theorem fillEntry_name (j : ℕ) (hj : j < 11) :
    fillEntry d p name attr first size (p + j) = name.getD j 0 := by
  unfold fillEntry
  rw [store32_outside (by omega), store16_outside (by omega), store16_outside (by omega),
    store8_other (by omega), copyIn_inside (by omega), Nat.add_sub_cancel_left]

theorem fillEntry_first : fillEntry d p name attr first size p = name.getD 0 0 :=
  fillEntry_name 0 (by norm_num)

theorem readEntry_fillEntry_name (hn : name.length = 11) :
    (readEntry (fillEntry d p name attr first size) p).name = name := by
  apply List.ext_getElem
  · rw [readEntry_name_length, hn]
  · intro j h1 h2
    simp only [readEntry, List.getElem_map, List.getElem_range]
    rw [fillEntry_name j (by omega), List.getD_eq_getElem _ _ h2]

theorem readEntry_fillEntry_attr :
    (readEntry (fillEntry d p name attr first size) p).attr = attr := by
  simp only [readEntry, fillEntry]
  rw [store32_outside (by omega), store16_outside (by omega), store16_outside (by omega),
    store8_same]

theorem readEntry_fillEntry_fileSize (hs : size < 2 ^ 32) :
    (readEntry (fillEntry d p name attr first size) p).fileSize = size := by
  simp only [readEntry, fillEntry]
  exact load32_store32 hs

theorem readEntry_fillEntry_firstCluster (hf : first < 2 ^ 32) :
    (readEntry (fillEntry d p name attr first size) p).firstCluster = first := by
  have hmask : ∀ n : ℕ, n &&& 0xFFFF = n % 2 ^ 16 := fun n => and_low_mask n 16
  simp only [readEntry, Fat32DirEntry.firstCluster, fillEntry, hmask]
  rw [load16_congr (a := p + 20) fun x h1 h2 => store32_outside (by omega),
    load16_store16 (Nat.mod_lt _ (by norm_num)),
    load16_congr (a := p + 26) fun x h1 h2 => by
      rw [store32_outside (by omega), store16_outside (by omega)],
    load16_store16 (Nat.mod_lt _ (by norm_num)),
    shiftLeft_or_eq_add (Nat.mod_lt _ (by norm_num)), Nat.shiftRight_eq_div_pow]
  omega

end Storing

section Searching

variable {fs : Fat32} {d : Bytes} {a p : ℕ} {l : List ℕ} {ρ : Type}

/-- The searches by name: the end mark stops them, deleted slots are passed over, and the
first of the rest with property `P` is the result. -/
def searchAt (d : Bytes) (P : ℕ → Prop) [DecidablePred P] (result : ℕ → ρ) (p : ℕ) :
    Option (Option ρ) :=
  if d p = 0 then some none
  else if d p = deletedMark then none
  else if P p then some (some (result p))
  else none

variable {P : ℕ → Prop} [DecidablePred P] {result : ℕ → ρ}

theorem searchAt_hit (hl : Live d p) (hp : P p) :
    searchAt d P result p = some (some (result p)) := by
  simp [searchAt, hl.1, hl.2, hp]

/-- The search passes over a slot that neither ends the directory nor is the result. -/
theorem searchAt_pass (h0 : d p ≠ 0) (hp : Live d p → ¬ P p) :
    searchAt d P result p = none := by
  by_cases h1 : d p = deletedMark
  · simp [searchAt, h1, deletedMark]
  · simp [searchAt, h0, h1, hp ⟨h0, h1⟩]

theorem search_first {pre post : List ℕ} (hl : l = pre ++ p :: post) (hlive : Live d p)
    (hp : P p) (hpre : ∀ q ∈ pre, d q ≠ 0 ∧ (Live d q → ¬ P q)) :
    l.findSome? (searchAt d P result) = some (some (result p)) :=
  List.findSome?_eq_some_iff.mpr ⟨pre, p, post, hl, searchAt_hit hlive hp,
    fun q hq => searchAt_pass (hpre q hq).1 (hpre q hq).2⟩

theorem search_some {r : ρ} (h : (l.findSome? (searchAt d P result)).join = some r) :
    ∃ pre p post, l = pre ++ p :: post ∧ Live d p ∧ P p ∧ r = result p ∧
      ∀ q ∈ pre, d q ≠ 0 ∧ (Live d q → ¬ P q) := by
  have h : l.findSome? (searchAt d P result) = some (some r) := by
    cases hv : l.findSome? (searchAt d P result) with
    | none => rw [hv] at h; cases h
    | some v => rw [hv] at h; exact congrArg some h
  obtain ⟨pre, p, post, rfl, hp, hpre⟩ := List.findSome?_eq_some_iff.mp h
  unfold searchAt at hp
  split_ifs at hp with h0 h1 h2
  · cases hp
  · refine ⟨pre, p, post, rfl, ⟨h0, h1⟩, h2, by cases hp; rfl, fun q hq => ⟨fun hq0 => ?_,
      fun hl hP => ?_⟩⟩
    · have hn := hpre q hq
      simp [searchAt, hq0] at hn
    · have hn := hpre q hq
      rw [searchAt_hit hl hP] at hn
      cases hn

theorem search_none (ht : l.Pairwise fun p q => d p = 0 → d q = 0)
    (h : (l.findSome? (searchAt d P result)).join = none) :
    ∀ p ∈ l, Live d p → ¬ P p := by
  intro p hp hl hP
  cases hv : l.findSome? (searchAt d P result) with
  | none =>
    have hn := List.findSome?_eq_none_iff.mp hv p hp
    rw [searchAt_hit hl hP] at hn
    cases hn
  | some v =>
    rw [hv] at h
    obtain rfl : v = none := h
    obtain ⟨pre, q, post, rfl, hq, hpre⟩ := List.findSome?_eq_some_iff.mp hv
    have hq0 : d q = 0 := by
      by_contra h0
      simp only [searchAt, h0, ↓reduceIte] at hq
      split_ifs at hq
      cases hq
    have htail := (List.pairwise_append.mp ht).2.1
    rcases List.mem_append.mp hp with hp | hp
    · have hn := hpre p hp
      rw [searchAt_hit hl hP] at hn
      cases hn
    · rcases List.mem_cons.mp hp with rfl | hp
      · exact hl.1 hq0
      · exact hl.1 ((List.pairwise_cons.mp htail).1 p hp hq0)

theorem search_map {σ : Type} (f : ρ → σ) (l : List ℕ) :
    (l.findSome? (searchAt d P result)).join.map f =
      (l.findSome? (searchAt d P fun p => f (result p))).join := by
  induction l with
  | nil => rfl
  | cons p l ih =>
    rw [List.findSome?_cons, List.findSome?_cons]
    by_cases h0 : d p = 0
    · simp only [searchAt, h0, ↓reduceIte]
      rfl
    by_cases hp : Live d p ∧ P p
    · rw [searchAt_hit hp.1 hp.2, searchAt_hit hp.1 hp.2]
      rfl
    · rw [searchAt_pass h0 fun hl hP => hp ⟨hl, hP⟩, searchAt_pass h0 fun hl hP => hp ⟨hl, hP⟩]
      exact ih

/-- Behind the end mark of a directory nothing is live, so the search selects the first
live slot with the property. -/
theorem search_eq (P : ℕ → Prop) [DecidablePred P] (result : ℕ → ρ)
    (ht : l.Pairwise fun p q => d p = 0 → d q = 0) :
    (l.findSome? (searchAt d P result)).join =
      l.findSome? fun p => if Live d p ∧ P p then some (result p) else none := by
  induction l with
  | nil => rfl
  | cons p l ih =>
    obtain ⟨hp, ht⟩ := List.pairwise_cons.mp ht
    rw [List.findSome?_cons, List.findSome?_cons]
    by_cases h0 : d p = 0
    · have hdead : ∀ q ∈ p :: l, ¬ Live d q := by
        intro q hq hl
        rcases List.mem_cons.mp hq with rfl | hq
        · exact hl.1 h0
        · exact hl.1 (hp q hq h0)
      have hrest : (l.findSome? fun p => if Live d p ∧ P p then some (result p) else none) =
          none := by
        refine List.findSome?_eq_none_iff.mpr fun q hq => if_neg fun h => ?_
        exact hdead q (List.mem_cons_of_mem _ hq) h.1
      rw [if_neg fun h => hdead p List.mem_cons_self h.1, hrest]
      simp [searchAt, h0]
    · by_cases h : Live d p ∧ P p
      · rw [searchAt_hit h.1 h.2, if_pos h]
        rfl
      · rw [searchAt_pass h0 fun hl hP => h ⟨hl, hP⟩, if_neg h]
        exact ih ht

def Matches (d : Bytes) (name : List UInt8) (p : ℕ) : Prop :=
  (readEntry d p).attr ≠ attrLongName ∧ (readEntry d p).name = name

instance (d : Bytes) (name : List UInt8) : DecidablePred (Matches d name) := fun p =>
  inferInstanceAs (Decidable ((readEntry d p).attr ≠ attrLongName ∧
    (readEntry d p).name = name))

theorem findVisit_slot (h : 32 ∣ p) (filename : List UInt8) :
    findVisit d (formatFilename filename) (p / 512) (p % 512 / 32) =
      searchAt d (Matches d (formatFilename filename)) (readEntry d) p := by
  have hlen : (readEntry d p).name.length = (formatFilename filename).length := by
    rw [readEntry_name_length, formatFilename_length]
  simp only [findVisit, searchAt, Matches, diskRead_slot h, readEntry_slot h,
    memcmp_eq_zero_iff hlen]
  split_ifs <;> simp_all

theorem deleteVisit_slot (h : 32 ∣ p) (name : List UInt8) :
    deleteVisit d name (p / 512) (p % 512 / 32) =
      searchAt d (Matches d name) (fun p => (p / 512, p % 512 / 32)) p := by
  simp only [deleteVisit, searchAt, Matches, diskRead_slot h, readEntry_slot h, and_comm]

theorem removeVisit_slot (h : 32 ∣ p) (name : List UInt8) :
    removeVisit d name (p / 512) (p % 512 / 32) =
      searchAt d (fun p => (readEntry d p).name = name) (fun p => (p / 512, p % 512 / 32)) p := by
  simp only [removeVisit, searchAt, diskRead_slot h, readEntry_slot h]

theorem findFile_eq (hg : Geometry fs) (h : Chain fs d a l) (filename : List UInt8) :
    fat32FindFile fs d a filename = some ((slots fs l).findSome?
      (searchAt d (Matches d (formatFilename filename)) (readEntry d))).join := by
  rw [fat32FindFile, walkDirectory_eq hg h, Option.map_some]
  congr 2
  exact findSome?_congr fun p hp => findVisit_slot (slots_dvd hp) filename

theorem deleteWalk_eq (hg : Geometry fs) (h : Chain fs d a l) (name : List UInt8) :
    walkDirectory fs d a (deleteVisit d name) = some ((slots fs l).findSome?
      (searchAt d (Matches d name) fun p => (p / 512, p % 512 / 32))) := by
  rw [walkDirectory_eq hg h]
  congr 1
  exact findSome?_congr fun p hp => deleteVisit_slot (slots_dvd hp) name

theorem removeWalk_eq (hg : Geometry fs) (h : Chain fs d a l) (name : List UInt8) :
    walkDirectory fs d a (removeVisit d name) = some ((slots fs l).findSome?
      (searchAt d (fun p => (readEntry d p).name = name)
        fun p => (p / 512, p % 512 / 32))) := by
  rw [walkDirectory_eq hg h]
  congr 1
  exact findSome?_congr fun p hp => removeVisit_slot (slots_dvd hp) name

theorem freeSlotVisit_slot (h : 32 ∣ p) :
    (Live d p → freeSlotVisit d (p / 512) (p % 512 / 32) = none) ∧
    (¬ Live d p → freeSlotVisit d (p / 512) (p % 512 / 32) = some (p / 512, p % 512 / 32)) := by
  unfold freeSlotVisit
  simp only [diskRead_slot h]
  constructor
  · intro hl
    rw [if_neg (not_or.mpr hl)]
  · intro hl
    rw [if_pos (by rwa [Live, ← not_or, not_not] at hl)]

theorem firstFree (l : List ℕ) (hl : ∀ p ∈ l, 32 ∣ p) :
    (∀ p ∈ l, Live d p) ∧
        (l.findSome? fun p => freeSlotVisit d (p / 512) (p % 512 / 32)) = none ∨
      ∃ pre p post, l = pre ++ p :: post ∧ ¬ Live d p ∧ (∀ q ∈ pre, Live d q) ∧
        (l.findSome? fun p => freeSlotVisit d (p / 512) (p % 512 / 32)) =
          some (p / 512, p % 512 / 32) := by
  induction l with
  | nil => exact .inl ⟨by simp, rfl⟩
  | cons p l ih =>
    have hp := freeSlotVisit_slot (d := d) (hl p List.mem_cons_self)
    by_cases hlive : Live d p
    · rw [List.findSome?_cons, hp.1 hlive]
      rcases ih fun q hq => hl q (List.mem_cons_of_mem _ hq) with
        ⟨hall, hn⟩ | ⟨pre, q, post, rfl, hq, hpre, hs⟩
      · exact .inl ⟨List.forall_mem_cons.mpr ⟨hlive, hall⟩, hn⟩
      · exact .inr ⟨p :: pre, q, post, rfl, hq, List.forall_mem_cons.mpr ⟨hlive, hpre⟩, hs⟩
    · rw [List.findSome?_cons, hp.2 hlive]
      exact .inr ⟨[], p, l, rfl, hlive, by simp, rfl⟩

theorem freeSlotWalk_spec (hg : Geometry fs) (h : Chain fs d a l) :
    (∀ p ∈ slots fs l, Live d p) ∧ walkDirectory fs d a (freeSlotVisit d) = some none ∨
      ∃ pre p post, slots fs l = pre ++ p :: post ∧ ¬ Live d p ∧ (∀ q ∈ pre, Live d q) ∧
        walkDirectory fs d a (freeSlotVisit d) = some (some (p / 512, p % 512 / 32)) := by
  rw [walkDirectory_eq hg h]
  rcases firstFree (d := d) (slots fs l) fun p => slots_dvd with ⟨hall, hn⟩ | ⟨pre, p, post, hs⟩
  · exact .inl ⟨hall, congrArg some hn⟩
  · exact .inr ⟨pre, p, post, hs.1, hs.2.1, hs.2.2.1, congrArg some hs.2.2.2⟩

/-- The loop that stays on the first cluster either finds the first slot of the chain that
is not live, in this cluster, or never ends. -/
theorem findParentSlot_spec (hg : Geometry fs) (h : Chain fs d a l) :
    (∀ p ∈ clusterSlots fs a, Live d p) ∧ findParentSlot fs d a = none ∨
      ∃ pre p post, p ∈ clusterSlots fs a ∧ slots fs l = pre ++ p :: post ∧ ¬ Live d p ∧
        (∀ q ∈ pre, Live d q) ∧
        findParentSlot fs d a = some (some (p / 512, p % 512 / 32)) := by
  have hoff : ¬ offChain a := (h.linked_offChain hg).not_ends h.head_mem
  obtain ⟨rest, rfl⟩ : ∃ rest, l = a :: rest := by
    cases h.linked with
    | nil => exact absurd rfl h.nonempty
    | cons => exact ⟨_, rfl⟩
  have hscan := scanCluster_eq hg h.start_inRange (freeSlotVisit d)
  have hdvd : ∀ p ∈ clusterSlots fs a, 32 ∣ p := fun p => clusterSlots_dvd
  rcases firstFree (d := d) (clusterSlots fs a) hdvd with ⟨hall, hn⟩ | ⟨pre, p, post, hs⟩
  · refine .inl ⟨hall, run_never_leaves (fun c => c = a) ?_ _ rfl⟩
    intro c hc
    subst hc
    exact ⟨c, by simp [walkBody, hoff, hscan, hn], rfl⟩
  · refine .inr ⟨pre, p, post ++ slots fs rest, ?_, ?_, hs.2.1, hs.2.2.1, ?_⟩
    · rw [hs.1]
      exact List.mem_append_right pre List.mem_cons_self
    · simp only [slots, List.flatMap_cons]
      rw [hs.1, List.append_assoc, List.cons_append]
    · exact run_leave (by simp [walkBody, hoff, hscan, hs.2.2.2]) _

end Searching

section Deleting

variable {fs : Fat32} {d d' : Bytes} {a p x : ℕ} {l : List ℕ}

theorem freeChain_linked (hg : Geometry fs) {n : ℕ}
    (h : Linked (fat32NextCluster fs d) offChain a l) (hr : ∀ c ∈ l, InRange fs c)
    (hn : l.length < n) :
    ∃ d', run (freeBody fs) n (d, a) = some d' ∧ (∀ c ∈ l, fat32NextCluster fs d' c = 0) ∧
      (∀ x, (∀ c ∈ l, x ∉ cell fs c) → d' x = d x) ∧ SameHigh fs d d' := by
  induction l generalizing d a n with
  | nil =>
    obtain ⟨k, rfl⟩ : ∃ k, n = k + 1 := ⟨n - 1, by simp at hn; omega⟩
    cases h with
    | nil ha =>
      exact ⟨d, run_leave (by simp [freeBody, ha]) k, by simp, fun _ _ => rfl, fun _ _ => rfl⟩
  | cons c l ih =>
    obtain ⟨k, rfl⟩ : ∃ k, n = k + 1 := ⟨n - 1, by simp at hn; omega⟩
    have hnd := List.nodup_cons.mp h.nodup
    have hc := hr _ List.mem_cons_self
    have hrl : ∀ x ∈ l, InRange fs x := fun x hx => hr x (List.mem_cons_of_mem _ hx)
    have hne : ∀ x ∈ l, x ≠ c := fun x hx he => hnd.1 (he ▸ hx)
    cases h with
    | cons ha h =>
      have hcong : Linked (fat32NextCluster fs (fat32SetNextCluster fs d c 0)) _ _ l :=
        h.congr fun x hx => nextCluster_setNextCluster_ne hg hc.2 (hrl x hx).2 (hne x hx)
      obtain ⟨d', hrun, hzero, hout, hhigh⟩ := ih hcong hrl (by simpa using hn)
      refine ⟨d', ?_, ?_, ?_, (setNextCluster_sameHigh hg hc.2).trans hhigh⟩
      · rw [run_again (by simp [freeBody, ha]; rfl)]
        exact hrun
      · intro x hx
        rcases List.mem_cons.mp hx with rfl | hx
        · rw [nextCluster_congr hg hc.2 fun y hy => hout y fun z hz =>
            cell_disjoint (hne z hz).symm hy]
          exact nextCluster_setNextCluster hg hc.2 (by norm_num)
        · exact hzero x hx
      · intro x hx
        rw [hout x fun z hz => hx z (List.mem_cons_of_mem _ hz)]
        exact setNextCluster_outside hg hc.2 (hx c List.mem_cons_self)

theorem freeChain_spec (hg : Geometry fs) (h : Extent fs d a l) :
    ∃ d', freeChain fs d a = some d' ∧ (∀ c ∈ l, fat32NextCluster fs d' c = 0) ∧
      (∀ x, (∀ c ∈ l, x ∉ cell fs c) → d' x = d x) ∧ SameHigh fs d d' := by
  rcases h with ⟨rfl, rfl⟩ | h
  · exact freeChain_linked hg (.nil (by decide)) (by simp) (by simp)
  · exact freeChain_linked hg (h.linked_offChain hg) h.inRange (h.length_lt hg)

theorem markDeleted_eq (h : 32 ∣ p)
    (hd : ∀ o < 512, d' (512 * (p / 512) + o) = d (512 * (p / 512) + o)) :
    markDeleted d' (diskRead d (p / 512)) (p / 512, p % 512 / 32) =
      store8 d' p deletedMark := by
  have hbuf : ∀ o < 512, store8 (diskRead d (p / 512)) (32 * (p % 512 / 32)) deletedMark o =
      window (store8 d' p deletedMark) (512 * (p / 512)) o := by
    intro o ho
    by_cases hx : o = 32 * (p % 512 / 32)
    · rw [hx, store8_same, window, slot_addr h, store8_same]
    · rw [store8_other hx, window, store8_other (by omega), hd o ho]
      rfl
  funext x
  by_cases hx : 512 * (p / 512) ≤ x ∧ x < 512 * (p / 512) + 512
  · obtain ⟨o, rfl⟩ := Nat.exists_eq_add_of_le hx.1
    rw [markDeleted, diskWrite_inside (by omega), hbuf o (by omega)]
    rfl
  · rw [markDeleted, diskWrite_outside (by omega), store8_other (by omega)]

end Deleting

end Fat32Entries
