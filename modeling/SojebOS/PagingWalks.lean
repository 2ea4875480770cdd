import SojebOS.AddressSpace
import SojebOS.Paging
import Mathlib.Data.Nat.Bitwise
import Mathlib.Data.List.Range

/-!
# What an entry of a page table decides

A write to one entry changes the walk of one page, and a new table changes no walk: the
tables in use lie in different frames, none of them the directory's.
-/
namespace PagingWalks

open ByteMemory MachineWord PageFrames Paging

section Words

theorem present_iff (x : ℕ) : x &&& pagePresent ≠ 0 ↔ x % 2 = 1 := by
  rw [show pagePresent = 2 ^ 1 - 1 from rfl, and_low_mask]
  omega

theorem user_iff (x : ℕ) : x &&& pageUser ≠ 0 ↔ x / 4 % 2 = 1 := by
  rw [show pageUser = 2 ^ 2 from rfl, Nat.and_two_pow, Nat.testBit_eq_decide_div_mod_eq]
  simp

theorem page_mask {x : ℕ} (hx : x < 2 ^ 32) : x &&& 0xFFFFF000 = 4096 * (x / 4096) := by
  have hmask : x &&& (2 ^ 32 - 2 ^ 12) = x / 2 ^ 12 * 2 ^ 12 := and_high_mask hx (by norm_num)
  rw [Nat.mul_comm]
  exact hmask

theorem table_word (t : ℕ) : 4096 * t ||| (pagePresent ||| pageRw ||| pageUser) = 4096 * t + 7 := by
  have hor : t * 2 ^ 12 ||| 7 = t * 2 ^ 12 + 7 := or_eq_add (by norm_num)
  rw [show pagePresent ||| pageRw ||| pageUser = 7 from rfl, Nat.mul_comm 4096]
  exact hor

theorem kernel_word (t : ℕ) : 4096 * t ||| (pagePresent ||| pageRw) = 4096 * t + 3 := by
  have hor : t * 2 ^ 12 ||| 3 = t * 2 ^ 12 + 3 := or_eq_add (by norm_num)
  rw [show pagePresent ||| pageRw = 3 from rfl, Nat.mul_comm 4096]
  exact hor

theorem user_word {f : ℕ} (hf : f < 2 ^ 20) :
    4096 * f &&& 0xFFFFF000 ||| (pagePresent ||| pageRw ||| pageUser) &&& 0xFFF =
      4096 * f + 7 := by
  rw [page_mask (by omega), Nat.mul_div_cancel_left f (by norm_num),
    show (pagePresent ||| pageRw ||| pageUser) &&& 0xFFF = pagePresent ||| pageRw ||| pageUser
      from rfl]
  exact table_word f

theorem index_mask (x : ℕ) : x &&& 0x3FF = x % 1024 := and_low_mask x 10

theorem directory_index (v : ℕ) : v >>> 22 = v / 4096 / 1024 := by
  rw [Nat.shiftRight_eq_div_pow, Nat.div_div_eq_div_mul]

theorem table_index (v : ℕ) : (v >>> 12) &&& 0x3FF = v / 4096 % 1024 := by
  rw [index_mask, Nat.shiftRight_eq_div_pow]

end Words

section Bitmap

variable {s : State} {f g : ℕ}

theorem bitmapTest_iff (s : State) (f : ℕ) :
    bitmapTest s f = (s.frameBitmap (f / 32)).testBit (f % 32) := by
  rw [bitmapTest, Nat.one_shiftLeft, Nat.and_two_pow]
  cases (s.frameBitmap (f / 32)).testBit (f % 32) <;> simp

theorem bitmapTest_set (s : State) (f g : ℕ) :
    bitmapTest (bitmapSet s f) g = (decide (g = f) || bitmapTest s g) := by
  rw [bitmapTest_iff, bitmapTest_iff]
  by_cases hw : g / 32 = f / 32
  · have hbit : f % 32 = g % 32 ↔ g = f := by omega
    simp only [bitmapSet, hw, Function.update_self, Nat.one_shiftLeft, Nat.testBit_or,
      Nat.testBit_two_pow, hbit]
    exact Bool.or_comm _ _
  · have hne : g ≠ f := fun e => hw (by rw [e])
    simp [bitmapSet, Function.update_of_ne hw, hne]

/-- `alloc_frame` scans from frame 0 upwards. -/
theorem allocFrame_lowest (s : State) :
    (allocFrame s = (0, s) ∧ ∀ f < totalFrames, bitmapTest s f = true) ∨
    ∃ f < totalFrames, bitmapTest s f = false ∧ (∀ g < f, bitmapTest s g = true) ∧
      allocFrame s = (4096 * f, bitmapSet s f) := by
  unfold allocFrame
  generalize hfind : (List.range totalFrames).find? (fun i => !bitmapTest s i) = found
  cases found with
  | none =>
    apply Or.inl
    constructor
    · rfl
    · intro f hf
      have hall := List.find?_eq_none.mp hfind f (List.mem_range.mpr hf)
      simpa using hall
  | some f =>
    obtain ⟨hfree, hmem, hbelow⟩ := List.find?_range_eq_some.mp hfind
    rw [Bool.not_eq_true'] at hfree
    refine Or.inr ⟨f, List.mem_range.mp hmem, hfree, fun g hg => ?_, rfl⟩
    simpa using hbelow g hg

theorem allocFrame_filled {s : State} {n : ℕ}
    (hused : ∀ f, bitmapTest s f = decide (f < n)) (hn : n < totalFrames) :
    allocFrame s = (4096 * n, bitmapSet s n) := by
  rcases allocFrame_lowest s with ⟨-, hall⟩ | ⟨f, -, hf, hbelow, he⟩
  · have hself := hall n hn
    rw [hused, decide_eq_true_eq] at hself
    exact absurd hself (lt_irrefl n)
  · rw [hused, decide_eq_false_iff_not, not_lt] at hf
    have hle : f ≤ n := by
      by_contra hlt
      have hself := hbelow n (by omega)
      rw [hused, decide_eq_true_eq] at hself
      exact lt_irrefl n hself
    have hfn : f = n := le_antisymm hle hf
    rw [he, hfn]

theorem bitmapSet_filled {s : State} {n : ℕ} (hused : ∀ f, bitmapTest s f = decide (f < n))
    (f : ℕ) :
    bitmapTest (bitmapSet s n) f = decide (f < n + 1) := by
  rw [bitmapTest_set, hused, ← Bool.decide_or]
  exact decide_eq_decide.mpr (by omega)

end Bitmap

section Walks

def tableFrame (k : KernelImage) (s : State) (d : ℕ) : Option ℕ :=
  if d < 1024 ∧ directoryEntry k s d &&& pagePresent ≠ 0 then some (directoryEntry k s d / 4096)
  else none

/-- The frame that a page gives to ring 3. -/
def userFrame (k : KernelImage) (s : State) (page : ℕ) : Option ℕ :=
  if page < 2 ^ 20 ∧ walk k s page &&& pagePresent ≠ 0 ∧ walk k s page &&& pageUser ≠ 0 then
    some (walk k s page / 4096)
  else none

variable {k : KernelImage} {s s' : State} {d t page f : ℕ}

theorem directoryEntry_mask (k : KernelImage) (s : State) (d : ℕ) :
    directoryEntry k s d &&& 0xFFFFF000 = 4096 * (directoryEntry k s d / 4096) :=
  page_mask (load32_lt _ _)

theorem walk_of_table (ht : tableFrame k s (page / 1024) = some t) :
    walk k s page = load32 s.memory (4096 * t + 4 * (page % 1024)) := by
  unfold tableFrame at ht
  split at ht
  · rename_i hd
    rw [walk, if_pos hd.2, directoryEntry_mask, Option.some.inj ht]
  · cases ht

theorem walk_of_none (hpage : page < 2 ^ 20) (ht : tableFrame k s (page / 1024) = none) :
    walk k s page = 0 := by
  unfold tableFrame at ht
  split at ht
  · cases ht
  · rename_i hd
    have hd' : page / 1024 < 1024 := by omega
    exact if_neg fun hp => hd ⟨hd', hp⟩

theorem walk_lt (k : KernelImage) (s : State) (page : ℕ) : walk k s page < 2 ^ 32 := by
  rw [walk]
  split
  · exact load32_lt _ _
  · norm_num

theorem userFrame_eq (h : userFrame k s page = some f) : walk k s page / 4096 = f := by
  unfold userFrame at h
  split at h
  · exact Option.some.inj h
  · cases h

theorem userFrame_of_word (hpage : page < 2 ^ 20) (hw : walk k s page = 4096 * f + 7) :
    userFrame k s page = some f := by
  have hflags : walk k s page &&& pagePresent ≠ 0 ∧ walk k s page &&& pageUser ≠ 0 := by
    rw [hw, present_iff, user_iff]
    omega
  rw [userFrame, if_pos ⟨hpage, hflags⟩, hw, Option.some.injEq]
  omega

theorem tableFrame_congr (h : FrameKept s.memory s'.memory k.directoryFrame) :
    tableFrame k s' = tableFrame k s := by
  funext d
  by_cases hd : d < 1024
  · have he : directoryEntry k s' d = directoryEntry k s d := h.word hd
    simp only [tableFrame, he]
  · simp only [tableFrame, hd, false_and, if_false]

theorem walk_congr (hpage : page < 2 ^ 20) (hd : tableFrame k s' = tableFrame k s)
    (ht : ∀ t, tableFrame k s (page / 1024) = some t → FrameKept s.memory s'.memory t) :
    walk k s' page = walk k s page := by
  cases h : tableFrame k s (page / 1024) with
  | none => rw [walk_of_none hpage h, walk_of_none hpage (hd ▸ h)]
  | some t =>
    rw [walk_of_table h, walk_of_table (hd ▸ h)]
    exact (ht t h).word (Nat.mod_lt _ (by norm_num))

end Walks

section Tables

/-- The frames of the address space that are not free for the allocator. -/
def space (k : KernelImage) (s : State) : AddressSpace.Space ℕ ℕ ℕ where
  held := { f | f < totalFrames → bitmapTest s f = true }
  table := tableFrame k s
  page := userFrame k s

structure Sound (k : KernelImage) (s : State) : Prop where
  isolated : AddressSpace.Isolated { f | ¬Pool k.kernelEnd f } (space k s)
  directory_apart : ∀ d, tableFrame k s d ≠ some k.directoryFrame

/-- What the walks need of a state, whatever the pages are mapped to: held tables in frames of
their own, none of them the directory's. -/
structure TablesApart (k : KernelImage) (s : State) : Prop where
  kept_held : ∀ f, ¬Pool k.kernelEnd f → f ∈ (space k s).held
  held : ∀ d t, tableFrame k s d = some t → t ∈ (space k s).held
  injective : ∀ d d' t, tableFrame k s d = some t → tableFrame k s d' = some t → d = d'
  directory_apart : ∀ d, tableFrame k s d ≠ some k.directoryFrame

variable {k : KernelImage} {s s' : State} {d t page f v : ℕ}

theorem Sound.tablesApart (h : Sound k s) : TablesApart k s where
  kept_held := fun _ hf => h.isolated.kept_held hf
  held := h.isolated.table_held
  injective := h.isolated.table_injective
  directory_apart := h.directory_apart

theorem mapPage_present {phys flags : ℕ}
    (ht : tableFrame k s (v / 4096 / 1024) = some t) :
    mapPage k s phys v flags = setTableEntry s (4096 * t) (v / 4096 % 1024)
      (phys &&& 0xFFFFF000 ||| flags &&& 0xFFF) := by
  unfold tableFrame at ht
  split at ht
  · rename_i hd
    rw [← Option.some.inj ht, ← directoryEntry_mask]
    simp only [mapPage, directory_index, table_index]
    exact if_pos hd.2
  · cases ht

theorem mapPage_absent {phys flags : ℕ} (hv : v < 2 ^ 32)
    (ht : tableFrame k s (v / 4096 / 1024) = none) :
    mapPage k s phys v flags =
      if (allocFrame s).1 = 0 then (allocFrame s).2
      else setTableEntry (attachTable k (allocFrame s).2 (v / 4096 / 1024) (allocFrame s).1)
        (allocFrame s).1 (v / 4096 % 1024) (phys &&& 0xFFFFF000 ||| flags &&& 0xFFF) := by
  unfold tableFrame at ht
  split at ht
  · cases ht
  · rename_i hd
    have hslot : v / 4096 / 1024 < 1024 := by omega
    simp only [mapPage, directory_index, table_index]
    exact if_neg fun hp => hd ⟨hslot, hp⟩

theorem setTableEntry_tableFrame (hdir : k.directoryFrame ≠ t) :
    tableFrame k (setTableEntry s (4096 * t) (page % 1024) v) = tableFrame k s :=
  tableFrame_congr (store32_frameKept s.memory v (Nat.mod_lt _ (by norm_num)) hdir)

theorem setTableEntry_walk (h : TablesApart k s) (ht : tableFrame k s (page / 1024) = some t)
    (hpage : page < 2 ^ 20) (hv : v < 2 ^ 32) :
    tableFrame k (setTableEntry s (4096 * t) (page % 1024) v) = tableFrame k s ∧
      ∀ q < 2 ^ 20, walk k (setTableEntry s (4096 * t) (page % 1024) v) q =
        if q = page then v else walk k s q := by
  have hi : page % 1024 < 1024 := Nat.mod_lt _ (by norm_num)
  have hkept : ∀ g, g ≠ t →
      FrameKept s.memory (setTableEntry s (4096 * t) (page % 1024) v).memory g :=
    fun g hg => store32_frameKept s.memory v hi hg
  have htables : tableFrame k (setTableEntry s (4096 * t) (page % 1024) v) = tableFrame k s :=
    setTableEntry_tableFrame fun e => h.directory_apart _ (e ▸ ht)
  refine ⟨htables, fun q hq => ?_⟩
  by_cases hslot : q / 1024 = page / 1024
  · rw [walk_of_table (t := t) (by rw [htables, hslot, ht]), walk_of_table (t := t) (hslot ▸ ht)]
    by_cases hqp : q = page
    · subst hqp
      rw [if_pos rfl]
      exact load32_store32 hv
    · rw [if_neg hqp]
      apply load32_store32_apart
      omega
  · rw [if_neg fun e => hslot (by rw [e])]
    apply walk_congr hq htables
    intro t' ht'
    apply hkept
    intro e
    exact hslot (h.injective _ _ t (e ▸ ht') ht)

theorem attachTable_directoryEntry (ht : t < 2 ^ 20) (hdir : k.directoryFrame ≠ t)
    {d' : ℕ} (hd' : d' < 1024) :
    directoryEntry k (attachTable k s d (4096 * t)) d' =
      if d' = d then 4096 * t + 7 else directoryEntry k s d' := by
  simp only [attachTable, setDirectoryEntry, directoryEntry, table_word]
  by_cases h : d' = d
  · rw [if_pos h, h]
    apply load32_store32
    omega
  · rw [if_neg h, load32_store32_apart (by omega)]
    exact (fillWords_frameKept s.memory _ hdir).word hd'

theorem attachTable_tableFrame (hd : d < 1024) (ht : t < 2 ^ 20) (hdir : k.directoryFrame ≠ t) :
    tableFrame k (attachTable k s d (4096 * t)) = Function.update (tableFrame k s) d (some t) := by
  funext d'
  by_cases h : d' = d
  · subst h
    have hpresent : (4096 * t + 7) &&& pagePresent ≠ 0 := by
      rw [present_iff]
      omega
    rw [Function.update_self, tableFrame, attachTable_directoryEntry ht hdir hd, if_pos rfl,
      if_pos ⟨hd, hpresent⟩, Option.some.injEq]
    omega
  · rw [Function.update_of_ne h]
    by_cases hd' : d' < 1024
    · rw [tableFrame, attachTable_directoryEntry ht hdir hd', if_neg h]
      rfl
    · simp only [tableFrame, hd', false_and, if_false]

/-- A new table is empty, so that no walk changes. -/
theorem attachTable_walk (h : TablesApart k s) (hd : d < 1024) (hnone : tableFrame k s d = none)
    (ht : t < 2 ^ 20) (hdir : k.directoryFrame ≠ t) (htable : ∀ d, tableFrame k s d ≠ some t)
    (hpage : page < 2 ^ 20) : walk k (attachTable k s d (4096 * t)) page = walk k s page := by
  have htables := attachTable_tableFrame (s := s) hd ht hdir
  have hdirkept : ∀ (m : Bytes) (v g : ℕ), g ≠ k.directoryFrame →
      FrameKept m (store32 m (k.pageDirectory + 4 * d) v) g :=
    fun m v g hg => store32_frameKept m v hd hg
  by_cases hslot : page / 1024 = d
  · have ht' : tableFrame k (attachTable k s d (4096 * t)) (page / 1024) = some t := by
      rw [htables, hslot, Function.update_self]
    rw [walk_of_table ht', walk_of_none hpage (hslot ▸ hnone)]
    have hi : page % 1024 < 1024 := Nat.mod_lt _ (by norm_num)
    calc load32 (attachTable k s d (4096 * t)).memory (4096 * t + 4 * (page % 1024))
        = load32 (fillWords s.memory (4096 * t) (fun _ => 0) 1024)
            (4096 * t + 4 * (page % 1024)) := (hdirkept _ _ t hdir.symm).word hi
      _ = 0 := load32_fillWords hi (by norm_num)
  · cases hcase : tableFrame k s (page / 1024) with
    | none =>
      rw [walk_of_none hpage hcase, walk_of_none hpage]
      rw [htables, Function.update_of_ne hslot, hcase]
    | some t' =>
      have ht' : tableFrame k (attachTable k s d (4096 * t)) (page / 1024) = some t' := by
        rw [htables, Function.update_of_ne hslot, hcase]
      rw [walk_of_table ht', walk_of_table hcase]
      have hfill : FrameKept s.memory (fillWords s.memory (4096 * t) (fun _ => 0) 1024) t' :=
        fillWords_frameKept s.memory _ fun e => htable _ (e ▸ hcase)
      have hstore := hdirkept (fillWords s.memory (4096 * t) (fun _ => 0) 1024)
        (4096 * t ||| (pagePresent ||| pageRw ||| pageUser)) t'
        fun e => h.directory_apart _ (e ▸ hcase)
      exact (hfill.trans hstore).word (Nat.mod_lt _ (by norm_num))

end Tables

section Frames

variable {k : KernelImage} {s s' : State} {d t f : ℕ}

theorem mem_held {g : ℕ} : g ∈ (space k s).held ↔ (g < totalFrames → bitmapTest s g = true) :=
  Iff.rfl

theorem not_mem_held {g : ℕ} :
    g ∉ (space k s).held ↔ g < totalFrames ∧ bitmapTest s g = false := by
  rw [mem_held, Classical.not_imp, Bool.not_eq_true]

theorem Sound.table_kept (h : Sound k s) (hf : f ∉ (space k s).held) (d : ℕ) :
    tableFrame k s d ≠ some f :=
  h.isolated.table_ne hf d

theorem Sound.directory_ne (h : Sound k s) (hf : f ∉ (space k s).held) : k.directoryFrame ≠ f :=
  fun e => hf (h.isolated.kept_held (e ▸ k.directory_kept))

theorem Sound.frame_pos (h : Sound k s) (h0 : ¬Pool k.kernelEnd 0) (hf : f ∉ (space k s).held) :
    4096 * f ≠ 0 := by
  intro e
  have hz : f = 0 := by omega
  exact hf (h.isolated.kept_held (hz ▸ h0))

theorem Sound.pool (h : Sound k s) (hf : f ∉ (space k s).held) : Pool k.kernelEnd f :=
  Classical.not_not.mp fun hn => hf (h.isolated.kept_held hn)

theorem Sound.hold (h : Sound k s) (hspace : space k s' = (space k s).hold f) : Sound k s' where
  isolated := hspace ▸ h.isolated.hold f
  directory_apart := by
    have htables : tableFrame k s' = tableFrame k s := congrArg AddressSpace.Space.table hspace
    rw [htables]
    exact h.directory_apart

theorem Sound.congr (h : Sound k s) (hspace : space k s' = space k s) : Sound k s' where
  isolated := hspace ▸ h.isolated
  directory_apart := by
    have htables : tableFrame k s' = tableFrame k s := congrArg AddressSpace.Space.table hspace
    exact htables ▸ h.directory_apart

theorem Sound.attach (h : Sound k s) (hspace : space k s' = (space k s).attach d t)
    (ht : t ∈ (space k s).held) (htable : ∀ d, tableFrame k s d ≠ some t)
    (hpage : ∀ p, userFrame k s p ≠ some t) (hdir : k.directoryFrame ≠ t) : Sound k s' where
  isolated := hspace ▸ h.isolated.attach ht htable hpage
  directory_apart := by
    intro d' e
    have htables : tableFrame k s' = Function.update (tableFrame k s) d (some t) :=
      congrArg AddressSpace.Space.table hspace
    rw [htables] at e
    rcases AddressSpace.update_some e with ⟨-, e'⟩ | hold
    · exact hdir e'.symm
    · exact h.directory_apart d' hold

end Frames

end PagingWalks
