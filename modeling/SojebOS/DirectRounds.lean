import SojebOS.DirectAccess
import SojebOS.TranslatedPaging

/-!
# Rounds that reach what they mean

Where the kernel's pages and every frame that a round writes to translate to themselves, the
paging code behind its page tables does what it does with physical memory before it: no round
faults, and none stores elsewhere.
-/
namespace DirectRounds

open ByteMemory MachineWord PageFrames Paging PagingWalks PagingRefinement PagingInit
open KernelMapping FrameSupply DirectAccess

/-- The page is present and shows the frame of its own number. -/
def SelfMapped (k : KernelImage) (s : State) (page : ℕ) : Prop :=
  walk k s page &&& pagePresent ≠ 0 ∧ walk k s page / pageSize = page

/-- The kernel finds its own pages, and its page directory, where they are. -/
structure KernelInPlace (k : KernelImage) (s : State) : Prop where
  kernel : ∀ page < reservedEndPage k.kernelEnd, SelfMapped k s page
  directory : SelfMapped k s k.directoryFrame

/-- The round for `vaddr` finds the kernel and every frame that it writes to in place. -/
structure Direct (k : KernelImage) (s : State) (vaddr : ℕ) : Prop where
  kernel : KernelInPlace k s
  frames : ∀ p ∈ framesTouched k s vaddr, SelfMapped k s (p / pageSize)

/-- Every round of the list is direct, and the kernel is in place behind the last. -/
def RoundsDirect (k : KernelImage) : State → List ℕ → Prop
  | s, [] => KernelInPlace k s
  | s, v :: vs => Direct k s v ∧ RoundsDirect k (mapUserPage k s v) vs

def visited (virtualAddress size : ℕ) : List ℕ :=
  if size = 0 then [] else userPages virtualAddress size

/-- One call of `paging_map_user_memory` after another. -/
def runTranslated (k : KernelImage) (s : State) (calls : List Call) : Option State :=
  calls.foldlM (fun s c => TranslatedPaging.pagingMapUserMemory k s c.1.toNat c.2.toNat) s

/-- The states that the system can be in when every round of its calls is direct: boot, the
calls as the code makes them, and in between any stores of ring 3. -/
inductive DirectlyReachable (k : KernelImage) : State → Prop where
  | init (memory : Bytes) : DirectlyReachable k (pagingInit k memory)
  | call {s s'} (virtualAddress size : UInt32) (h : DirectlyReachable k s)
      (hd : RoundsDirect k s (visited virtualAddress.toNat size.toNat))
      (hcall : TranslatedPaging.pagingMapUserMemory k s virtualAddress.toNat size.toNat = some s') :
      DirectlyReachable k s'
  | store {s} (a : UInt32) (p : ℕ) (b : UInt8) (h : DirectlyReachable k s)
      (hu : UserAccessible k s (a.toNat / pageSize)) (ht : translate k s a.toNat = some p) :
      DirectlyReachable k { s with memory := store8 s.memory p b }

section Accesses

variable {k : KernelImage} {s s' : State} {q f t n i v : ℕ}

theorem SelfMapped.congr (h : SelfMapped k s q) (hwalk : walk k s' q = walk k s q) :
    SelfMapped k s' q := by
  rw [SelfMapped, hwalk]
  exact h

theorem SelfMapped.translate (h : SelfMapped k s q) (hi : i < 4096) :
    translate k s (4096 * q + i) = some (4096 * q + i) := by
  have hpage : (4096 * q + i) / pageSize = q := by
    norm_num
    omega
  have hoffset : (4096 * q + i) % pageSize = i := by
    norm_num
    omega
  have hframe : walk k s q / 4096 = q := h.2
  rw [Paging.translate, hpage, hoffset, if_pos h.1, page_mask (walk_lt k s q), hframe]

theorem SelfMapped.loadWord (h : SelfMapped k s q) (hi : i < 1024) :
    TranslatedPaging.loadWord k s (4096 * q + 4 * i) =
      some (load32 s.memory (4096 * q + 4 * i)) := by
  rw [TranslatedPaging.loadWord, h.translate (by omega), Option.map_some]

theorem SelfMapped.storeWord (h : SelfMapped k s q) (hi : i < 1024) (v : ℕ) :
    TranslatedPaging.storeWord k s (4096 * q + 4 * i) v =
      some { s with memory := store32 s.memory (4096 * q + 4 * i) v } := by
  rw [TranslatedPaging.storeWord, h.translate (by omega), Option.map_some]

theorem copyIn_succ (m src : Bytes) (a n : ℕ) :
    store8 (copyIn m a n src) (a + n) (src n) = copyIn m a (n + 1) src := by
  funext x
  by_cases hx : x = a + n
  · have hn : src n = src (x - a) := by rw [hx, Nat.add_sub_cancel_left]
    rw [hx, store8_same, copyIn_inside ⟨by omega, by omega⟩, hn, hx]
  · rw [store8_other hx]
    by_cases hin : a ≤ x ∧ x < a + n
    · rw [copyIn_inside hin, copyIn_inside ⟨hin.1, by omega⟩]
    · rw [copyIn_outside (by omega), copyIn_outside (by omega)]

theorem writeVirtual_direct (hf : SelfMapped k s f) (hlt : f < 2 ^ 20)
    (hdir : k.directoryFrame ≠ f) (htable : ∀ d, tableFrame k s d ≠ some f) (src : Bytes)
    (hn : n ≤ 4096) :
    TranslatedPaging.writeVirtual k s (4096 * f) src n =
      some { s with memory := copyIn s.memory (4096 * f) n src } := by
  induction n with
  | zero =>
    have hsame : copyIn s.memory (4096 * f) 0 src = s.memory := by
      funext x
      exact copyIn_outside (by omega)
    rw [TranslatedPaging.writeVirtual, hsame]
  | succ n ih =>
    have hkept : ∀ g, g ≠ f → FrameKept s.memory (copyIn s.memory (4096 * f) n src) g := by
      intro g hg
      apply frameKept_of_confined _ hg
      intro x hx
      exact copyIn_outside (by omega)
    have hwalk := (sameTables_write hkept hdir htable).walks f hlt
    have hstore : u32 (4096 * f + n) = 4096 * f + n := u32_of_lt (by omega)
    rw [TranslatedPaging.writeVirtual, ih (by omega), Option.bind_some, hstore,
      TranslatedPaging.storeVirtual, (hf.congr hwalk).translate (by omega), Option.map_some,
      copyIn_succ]

theorem clearTable_direct (ht : SelfMapped k s t) (hlt : t < 2 ^ 20)
    (hdir : k.directoryFrame ≠ t) (htable : ∀ d, tableFrame k s d ≠ some t) (hn : n ≤ 1024) :
    TranslatedPaging.clearTable k s (4096 * t) n =
      some { s with memory := fillWords s.memory (4096 * t) (fun _ => 0) n } := by
  induction n with
  | zero => rfl
  | succ n ih =>
    have hkept : ∀ g, g ≠ t →
        FrameKept s.memory (fillWords s.memory (4096 * t) (fun _ => 0) n) g := by
      intro g hg
      apply frameKept_of_confined _ hg
      intro x hx
      exact fillWords_outside (by omega)
    have hwalk := (sameTables_write hkept hdir htable).walks t hlt
    rw [TranslatedPaging.clearTable, ih (by omega), Option.bind_some,
      (ht.congr hwalk).storeWord (by omega)]
    rfl

theorem loadWord_directory (h : KernelInPlace k s) (hv : v < 2 ^ 32) :
    TranslatedPaging.loadWord k s (k.pageDirectory + 4 * (v >>> 22)) =
      some (directoryEntry k s (v / 4096 / 1024)) := by
  have hslot : v / 4096 / 1024 < 1024 := by omega
  rw [directory_index]
  exact h.directory.loadWord hslot

theorem attachTable_direct (h : Sound k s) (hk : KernelInPlace k s) (ht : t ∉ (space k s).held)
    (hself : SelfMapped k s t) {d : ℕ} (hd : d < 1024) :
    ((TranslatedPaging.clearTable k (bitmapSet s t) (4096 * t) 1024).bind fun s =>
      TranslatedPaging.storeWord k s (k.pageDirectory + 4 * d)
        (4096 * t ||| (pagePresent ||| pageRw ||| pageUser))) =
      some (attachTable k (bitmapSet s t) d (4096 * t)) := by
  have hdir := h.directory_ne ht
  have hcleared := sameTables_write (k := k) (s := bitmapSet s t) (f := t)
    (m := fillWords s.memory (4096 * t) (fun _ => 0) 1024)
    (fun g hg => fillWords_frameKept s.memory _ hg) hdir (h.table_kept ht)
  have hstore := (hk.directory.congr (hcleared.walks k.directoryFrame k.directory_lt)).storeWord hd
    (4096 * t ||| (pagePresent ||| pageRw ||| pageUser))
  have hclear := clearTable_direct (s := bitmapSet s t) hself (frame_lt ht) hdir (h.table_kept ht)
    le_rfl
  rw [hclear, Option.bind_some]
  exact hstore

theorem mapPage_direct (h : Sound k s) (h0 : ¬Pool k.kernelEnd 0) (hk : KernelInPlace k s)
    (hv : v < 2 ^ 32) (htouched : ∀ p ∈ tablesTouched k s v, SelfMapped k s (p / pageSize))
    (phys flags : ℕ) :
    TranslatedPaging.mapPage k s phys v flags = some (mapPage k s phys v flags) := by
  have hslot : v / 4096 / 1024 < 1024 := by omega
  have hi : v / 4096 % 1024 < 1024 := Nat.mod_lt _ (by norm_num)
  have hframe : ∀ f, 4096 * f / pageSize = f := fun f => Nat.mul_div_cancel_left f (by norm_num)
  have hself : ∀ f, 4096 * f ∈ tablesTouched k s v → SelfMapped k s f :=
    fun f hf => hframe f ▸ htouched _ hf
  rw [TranslatedPaging.mapPage, loadWord_directory hk hv]
  simp only [Option.bind_eq_bind, Option.bind_some, table_index]
  cases hs : tableFrame k s (v / 4096 / 1024) with
  | some t =>
    have hentry : directoryEntry k s (v / 4096 / 1024) &&& pagePresent ≠ 0 ∧
        directoryEntry k s (v / 4096 / 1024) &&& 0xFFFFF000 = 4096 * t := by
      unfold tableFrame at hs
      split at hs
      · rename_i hd
        exact ⟨hd.2, by rw [directoryEntry_mask, Option.some.inj hs]⟩
      · cases hs
    have ht := hself t (by rw [tablesTouched_present hs]; exact List.mem_singleton_self _)
    rw [if_pos hentry.1, hentry.2, mapPage_present hs]
    exact ht.storeWord hi _
  | none =>
    have hentry : ¬directoryEntry k s (v / 4096 / 1024) &&& pagePresent ≠ 0 := by
      intro hpresent
      rw [tableFrame, if_pos ⟨hslot, hpresent⟩] at hs
      cases hs
    rw [if_neg hentry, mapPage_absent hv hs]
    rcases allocFrame_space k s with ⟨he, -⟩ | ⟨t, ht, he⟩
    · rw [he, if_pos rfl, if_pos rfl]
    · have hpos := h.frame_pos h0 ht
      have htself := hself t (by
        rw [tablesTouched_absent hv hs, he, if_neg hpos]
        exact List.mem_singleton_self _)
      have hattached := attachTable_walk (h.hold (space_bitmapSet k s t)).tablesApart hslot hs
        (frame_lt ht) (h.directory_ne ht) (h.table_kept ht) (frame_lt ht)
      have hattach := attachTable_direct h hk ht htself hslot
      rw [he, if_neg hpos, if_neg hpos, directory_index]
      calc _ = ((TranslatedPaging.clearTable k (bitmapSet s t) (4096 * t) 1024).bind fun s =>
              TranslatedPaging.storeWord k s (k.pageDirectory + 4 * (v / 4096 / 1024))
                (4096 * t ||| (pagePresent ||| pageRw ||| pageUser))).bind fun s =>
              TranslatedPaging.storeWord k s (4096 * t + 4 * (v / 4096 % 1024))
                (phys &&& 0xFFFFF000 ||| flags &&& 0xFFF) := (Option.bind_assoc _ _ _).symm
        _ = TranslatedPaging.storeWord k
              (attachTable k (bitmapSet s t) (v / 4096 / 1024) (4096 * t))
              (4096 * t + 4 * (v / 4096 % 1024)) (phys &&& 0xFFFFF000 ||| flags &&& 0xFFF) := by
            rw [hattach, Option.bind_some]
        _ = _ := (htself.congr hattached).storeWord hi _

end Accesses

section Rounds

variable {k : KernelImage} {s s' : State} {f t v : ℕ} {vs ws : List ℕ}

theorem reservedEndPage_lt (kernelEnd : ℕ) : reservedEndPage kernelEnd < 2 ^ 20 := by
  have hlt := u32_lt (kernelEnd + pageSize - 1)
  unfold reservedEndPage
  norm_num at hlt ⊢
  omega

theorem KernelInPlace.congr (h : KernelInPlace k s)
    (hwalk : ∀ q < 2 ^ 20, walk k s' q = walk k s q) : KernelInPlace k s' where
  kernel := fun q hq => (h.kernel q hq).congr (hwalk q (hq.trans (reservedEndPage_lt _)))
  directory := h.directory.congr (hwalk _ k.directory_lt)

theorem allocFrame_lt (s : State) : (allocFrame s).1 < 2 ^ 32 := by
  rcases allocFrame_lowest s with ⟨he, -⟩ | ⟨f, hf, -, -, he⟩
  · rw [he]
    norm_num
  · rw [he]
    norm_num at hf ⊢
    omega

theorem tablesTouched_lt {p : ℕ} (hp : p ∈ tablesTouched k s v) : p < 2 ^ 32 := by
  simp only [tablesTouched] at hp
  split at hp
  · rw [List.mem_singleton.mp hp]
    exact Nat.and_le_left.trans_lt (load32_lt _ _)
  · split at hp
    · exact absurd hp List.not_mem_nil
    · rw [List.mem_singleton.mp hp]
      exact allocFrame_lt s

theorem framesTouched_lt {p : ℕ} (hp : p ∈ framesTouched k s v) : p < 2 ^ 32 := by
  simp only [framesTouched] at hp
  split at hp
  · exact absurd hp List.not_mem_nil
  · rw [List.mem_cons] at hp
    rcases hp with he | hp
    · rw [he]
      exact allocFrame_lt s
    · exact tablesTouched_lt hp

theorem page_lt {p : ℕ} (hp : p < 2 ^ 32) : p / pageSize < 2 ^ 20 := by
  norm_num
  omega

/-- A round that finds everything in place does what the round on physical memory does. -/
theorem mapUserPage_direct (h : Sound k s) (h0 : ¬Pool k.kernelEnd 0) (hv : v < 2 ^ 32)
    (hd : Direct k s v) :
    TranslatedPaging.mapUserPage k s v = some (mapUserPage k s v) := by
  rcases allocFrame_space k s with ⟨he, -⟩ | ⟨f, hf, he⟩
  · simp only [TranslatedPaging.mapUserPage, mapUserPage, he, if_true]
  · have hpos := h.frame_pos h0 hf
    have htouched := framesTouched_take h h0 hf he v
    have hself : SelfMapped k s f := by
      have hframe : 4096 * f / pageSize = f := Nat.mul_div_cancel_left f (by norm_num)
      rw [← hframe]
      exact hd.frames _ (htouched ▸ List.mem_cons_self)
    have hclear : TranslatedPaging.writeVirtual k (bitmapSet s f) (4096 * f) (fun _ => 0) pageSize =
        some (takeFrame s f) :=
      writeVirtual_direct (s := bitmapSet s f) hself (frame_lt hf) (h.directory_ne hf)
        (h.table_kept hf) _ le_rfl
    obtain ⟨hspace, hwalk⟩ := takeFrame_space h hf
    have htables : ∀ p ∈ tablesTouched k (takeFrame s f) v,
        SelfMapped k (takeFrame s f) (p / pageSize) := by
      intro p hp
      have hold := hd.frames p (htouched ▸ List.mem_cons_of_mem _ hp)
      exact hold.congr (hwalk _ (page_lt (tablesTouched_lt hp)))
    have hmap := mapPage_direct (h.hold hspace) h0 (hd.kernel.congr hwalk) hv htables (4096 * f)
      (pagePresent ||| pageRw ||| pageUser)
    rw [mapUserPage_take h h0 hf he]
    simp only [TranslatedPaging.mapUserPage, he, if_neg hpos]
    rw [hclear, Option.bind_some]
    exact hmap

theorem RoundsDirect.kernel (h : RoundsDirect k s vs) : KernelInPlace k s := by
  cases vs with
  | nil => exact h
  | cons v vs => exact h.1.kernel

theorem roundsDirect_append : RoundsDirect k s (vs ++ ws) ↔
    RoundsDirect k s vs ∧ RoundsDirect k (vs.foldl (mapUserPage k) s) ws := by
  induction vs generalizing s with
  | nil => exact ⟨fun h => ⟨h.kernel, h⟩, And.right⟩
  | cons v vs ih =>
    rw [List.cons_append, RoundsDirect, RoundsDirect, ih, List.foldl_cons, and_assoc]

theorem rounds_direct (h : Sound k s) (h0 : ¬Pool k.kernelEnd 0) (hvs : ∀ v ∈ vs, v < 2 ^ 32)
    (hd : RoundsDirect k s vs) :
    vs.foldlM (TranslatedPaging.mapUserPage k) s = some (vs.foldl (mapUserPage k) s) := by
  induction vs generalizing s with
  | nil => rfl
  | cons v vs ih =>
    have hv := hvs v List.mem_cons_self
    rw [List.foldlM_cons, mapUserPage_direct h h0 hv hd.1, List.foldl_cons]
    exact ih ((mapUserPage_outcome h h0 hv).sound h)
      (fun w hw => hvs w (List.mem_cons_of_mem v hw)) hd.2

theorem pagingMapUserMemory_direct (h : Sound k s) (h0 : ¬Pool k.kernelEnd 0) {va size : ℕ}
    (hd : RoundsDirect k s (visited va size)) :
    TranslatedPaging.pagingMapUserMemory k s va size = some (pagingMapUserMemory k s va size) := by
  unfold visited at hd
  unfold TranslatedPaging.pagingMapUserMemory pagingMapUserMemory
  split
  · rfl
  · rename_i hsize
    rw [if_neg hsize] at hd
    exact rounds_direct h h0 (fun v hv => userPages_lt hv) hd

theorem runTranslated_direct (h : Sound k s) (h0 : ¬Pool k.kernelEnd 0) {calls : List Call}
    (hd : RoundsDirect k s (calls.flatMap callPages)) :
    runTranslated k s calls = some (runCalls k s calls) := by
  induction calls generalizing s with
  | nil => rfl
  | cons c calls ih =>
    rw [List.flatMap_cons, roundsDirect_append, ← call_eq_rounds] at hd
    have hcall : TranslatedPaging.pagingMapUserMemory k s c.1.toNat c.2.toNat =
        some (call k s c) := pagingMapUserMemory_direct h h0 hd.1
    rw [runTranslated, List.foldlM_cons, hcall]
    exact ih (pagingMapUserMemory_sound h0 h _ _).1 hd.2

theorem DirectlyReachable.reachable (h0 : ¬Pool k.kernelEnd 0) (h : DirectlyReachable k s) :
    Reachable k s := by
  induction h with
  | init memory => exact .init memory
  | call va size _ hd hcall ih =>
    rw [pagingMapUserMemory_direct (reachable_sound h0 ih) h0 hd, Option.some.injEq] at hcall
    exact hcall ▸ .call va size ih
  | store a p b _ hu ht ih => exact .store a p b ih hu ht

end Rounds

section Identity

variable {k : KernelImage} {s s' : State} {page v : ℕ} {vs : List ℕ}

theorem outcome_walk_other (hout : PageOutcome k s page s') {q : ℕ} (hq : q < 2 ^ 20)
    (hne : q ≠ page) : walk k s' q = walk k s q := by
  cases hout with
  | refused => rfl
  | stranded _ _ _ _ _ _ hwalk => exact hwalk q hq
  | placed _ _ _ _ _ hmap => rw [hmap.walk_eq q hq, if_neg hne]
  | grown _ _ _ _ _ _ hmap => rw [hmap.walk_eq q hq, if_neg hne]

/-- The kernel and its directory lie in the range of the identity map. -/
def KernelLow (k : KernelImage) : Prop :=
  reservedEndPage k.kernelEnd ≤ 4096 ∧ k.directoryFrame < 4096

def IdentityWhole (k : KernelImage) (s : State) : Prop := ∀ q < 4096, SelfMapped k s q

theorem IdentityWhole.kernel (h : IdentityWhole k s) (hk : KernelLow k) : KernelInPlace k s where
  kernel := fun q hq => h q (hq.trans_le hk.1)
  directory := h _ hk.2

theorem IdentityWhole.direct (h : IdentityWhole k s) (hk : KernelLow k)
    (hlow : ∀ p ∈ framesTouched k s v, p + pageSize ≤ identityEnd) : Direct k s v where
  kernel := h.kernel hk
  frames := by
    intro p hp
    have hle := hlow p hp
    apply h
    norm_num at hle ⊢
    omega

theorem visited_above {va size : ℕ} (hva : va < 2 ^ 32) (habove : identityEnd ≤ va)
    (hv : v ∈ visited va size) : v < 2 ^ 32 ∧ identityEnd ≤ v := by
  unfold visited at hv
  split at hv
  · exact absurd hv List.not_mem_nil
  · exact userPages_above hva habove hv

/-- Above the identity map the rounds that stay below 16 MB with their frames are direct. -/
theorem roundsDirect_of_reachable (hk : KernelLow k) (h : Sound k s) (h0 : ¬Pool k.kernelEnd 0)
    (hid : IdentityWhole k s) (hvs : ∀ v ∈ vs, v < 2 ^ 32 ∧ identityEnd ≤ v)
    (hreach : RoundsReachable k s vs) : RoundsDirect k s vs := by
  induction vs generalizing s with
  | nil => exact hid.kernel hk
  | cons v vs ih =>
    obtain ⟨hv, habove⟩ := hvs v List.mem_cons_self
    have hout := mapUserPage_outcome h h0 hv
    have hid' : IdentityWhole k (mapUserPage k s v) := by
      intro q hq
      refine (hid q hq).congr (outcome_walk_other hout (by omega) ?_)
      norm_num at habove
      omega
    exact ⟨hid.direct hk hreach.1, ih (hout.sound h) hid'
      (fun w hw => hvs w (List.mem_cons_of_mem v hw)) hreach.2⟩

theorem pagingInit_identityWhole (k : KernelImage) (memory : Bytes) :
    IdentityWhole k (pagingInit k memory) := by
  intro q hq
  rw [SelfMapped, pagingInit_walk k memory (by omega), if_pos hq, present_iff]
  norm_num
  omega

theorem boot_rounds_direct (hvs : ∀ v ∈ vs, v < 2 ^ 32 ∧ identityEnd ≤ v)
    (hlen : vs.length ≤ 1000) :
    RoundsDirect UserIsolation.bootImage (pagingInit UserIsolation.bootImage fun _ => 0) vs := by
  have h0 : ¬Pool UserIsolation.bootImage.kernelEnd 0 := by decide
  refine roundsDirect_of_reachable ⟨by decide, by decide⟩ (pagingInit_sound _ _) h0
    (pagingInit_identityWhole _ _) hvs ?_
  rw [rounds_reachable_iff (pagingInit_filled _ _) h0 (by decide) hvs]
  have hneed := framesNeeded_le UserIsolation.bootImage
    (pagingInit UserIsolation.bootImage fun _ => 0) vs
  have hreserved : reservedEndPage UserIsolation.bootImage.kernelEnd = 1536 := by decide
  omega

end Identity

section SameTables

variable {k : KernelImage} {s s' : State} {f t v w : ℕ} {vs : List ℕ}

theorem sameTables_allocFrame (h : SameTables k s s') :
    (allocFrame s = (0, s) ∧ allocFrame s' = (0, s')) ∨
    ∃ f, f ∉ (space k s).held ∧ allocFrame s = (4096 * f, bitmapSet s f) ∧
      allocFrame s' = (4096 * f, bitmapSet s' f) := by
  have htest := h.bitmapTest_eq
  rcases allocFrame_lowest s with ⟨he, hall⟩ | ⟨f, hf, hfree, hbelow, he⟩
  · rcases allocFrame_lowest s' with ⟨he', -⟩ | ⟨f', hf', hfree', -⟩
    · exact Or.inl ⟨he, he'⟩
    · rw [htest, hall f' hf'] at hfree'
      cases hfree'
  · rcases allocFrame_lowest s' with ⟨-, hall'⟩ | ⟨f', -, hfree', hbelow', he'⟩
    · rw [← htest, hall' f hf] at hfree
      cases hfree
    · rw [htest] at hfree' hbelow'
      have heq : f' = f := by
        rcases Nat.lt_trichotomy f' f with hlt | heq | hlt
        · rw [hbelow f' hlt] at hfree'
          cases hfree'
        · exact heq
        · rw [hbelow' f hlt] at hfree
          cases hfree
      exact Or.inr ⟨f, not_mem_held.mpr ⟨hf, hfree⟩, he, heq ▸ he'⟩

theorem sameTables_takeFrame (h : SameTables k s s') (hs : Sound k s)
    (hf : f ∉ (space k s).held) : SameTables k (takeFrame s f) (takeFrame s' f) := by
  have hf' : f ∉ (space k s').held := by
    rw [h.space_eq]
    exact hf
  refine ⟨?_, ?_, fun q hq => ?_⟩
  · simp only [takeFrame, bitmapSet, h.bitmap]
  · rw [takeFrame_tableFrame hs hf, takeFrame_tableFrame (h.sound hs) hf', h.tables]
  · rw [(takeFrame_space hs hf).2 q hq, (takeFrame_space (h.sound hs) hf').2 q hq, h.walks q hq]

theorem sameTables_setTableEntry (h : SameTables k s s') (hs : TablesApart k s)
    (hs' : TablesApart k s') {page : ℕ} (ht : tableFrame k s (page / 1024) = some t)
    (hpage : page < 2 ^ 20) (hw : w < 2 ^ 32) :
    SameTables k (setTableEntry s (4096 * t) (page % 1024) w)
      (setTableEntry s' (4096 * t) (page % 1024) w) := by
  have ht' : tableFrame k s' (page / 1024) = some t := h.tables ▸ ht
  obtain ⟨htables, hwalk⟩ := setTableEntry_walk hs ht hpage hw
  obtain ⟨htables', hwalk'⟩ := setTableEntry_walk hs' ht' hpage hw
  refine ⟨h.bitmap, by rw [htables', htables, h.tables], fun q hq => ?_⟩
  rw [hwalk' q hq, hwalk q hq, h.walks q hq]

theorem sameTables_mapUserPage (h : SameTables k s s') (hs : Sound k s)
    (h0 : ¬Pool k.kernelEnd 0) (hv : v < 2 ^ 32) :
    SameTables k (mapUserPage k s v) (mapUserPage k s' v) := by
  have hs' := h.sound hs
  have hpage : v / 4096 < 2 ^ 20 := by omega
  have hslot : v / 4096 / 1024 < 1024 := by omega
  rcases sameTables_allocFrame h with ⟨he, he'⟩ | ⟨f, hf, he, he'⟩
  · simpa only [mapUserPage, he, he', if_true] using h
  have hf' : f ∉ (space k s').held := by
    rw [h.space_eq]
    exact hf
  have htaken := sameTables_takeFrame h hs hf
  have hsound := hs.hold (takeFrame_space hs hf).1
  have hsound' := htaken.sound hsound
  have hword := user_word_lt (not_mem_held.mp hf).1
  cases ht : tableFrame k s (v / 4096 / 1024) with
  | some t =>
    rw [mapUserPage_present hs h0 hf he ht,
      mapUserPage_present hs' h0 hf' he' (h.tables ▸ ht)]
    exact sameTables_setTableEntry htaken hsound.tablesApart hsound'.tablesApart
      (by rw [takeFrame_tableFrame hs hf, ht]) hpage hword
  | none =>
    rw [mapUserPage_absent hs h0 hf he hv ht,
      mapUserPage_absent hs' h0 hf' he' hv (h.tables ▸ ht)]
    have hnone : tableFrame k (takeFrame s f) (v / 4096 / 1024) = none := by
      rw [takeFrame_tableFrame hs hf, ht]
    rcases sameTables_allocFrame htaken with ⟨he, he'⟩ | ⟨t, htf, he, he'⟩
    · rw [he, he', if_pos rfl, if_pos rfl]
      exact htaken
    · have htf' : t ∉ (space k (takeFrame s' f)).held := by
        rw [htaken.space_eq]
        exact htf
      have hpos := hsound.frame_pos h0 htf
      obtain ⟨-, hgrown, hattached, hwalk⟩ := attachTable_grown hsound hslot hnone htf
      obtain ⟨-, hgrown', -, hwalk'⟩ :=
        attachTable_grown hsound' hslot (htaken.tables ▸ hnone) htf'
      rw [he, he', if_neg hpos, if_neg hpos]
      refine sameTables_setTableEntry ⟨?_, ?_, fun q hq => ?_⟩ hgrown.tablesApart
        hgrown'.tablesApart hattached hpage hword
      · simp only [attachTable, setDirectoryEntry, bitmapSet, htaken.bitmap]
      · rw [attachTable_tableFrame hslot (frame_lt htf) (hsound.directory_ne htf),
          attachTable_tableFrame hslot (frame_lt htf) (hsound.directory_ne htf)]
        exact congrArg (Function.update · _ _) htaken.tables
      · rw [hwalk' q hq, hwalk q hq, htaken.walks q hq]

theorem sameTables_tablesTouched (h : SameTables k s s') (hv : v < 2 ^ 32) :
    tablesTouched k s' v = tablesTouched k s v := by
  cases ht : tableFrame k s (v / 4096 / 1024) with
  | some t => rw [tablesTouched_present ht, tablesTouched_present (h.tables ▸ ht)]
  | none =>
    rw [tablesTouched_absent hv ht, tablesTouched_absent hv (h.tables ▸ ht)]
    rcases sameTables_allocFrame h with ⟨he, he'⟩ | ⟨f, -, he, he'⟩
    · rw [he, he']
    · rw [he, he']

theorem sameTables_framesTouched (h : SameTables k s s') (hs : Sound k s)
    (h0 : ¬Pool k.kernelEnd 0) (hv : v < 2 ^ 32) :
    framesTouched k s' v = framesTouched k s v := by
  rcases sameTables_allocFrame h with ⟨he, he'⟩ | ⟨f, hf, he, he'⟩
  · simp only [framesTouched, he, he', if_true]
  · have hf' : f ∉ (space k s').held := by
      rw [h.space_eq]
      exact hf
    rw [framesTouched_take hs h0 hf he, framesTouched_take (h.sound hs) h0 hf' he',
      sameTables_tablesTouched (sameTables_takeFrame h hs hf) hv]

theorem RoundsDirect.congr (h : SameTables k s s') (hs : Sound k s) (h0 : ¬Pool k.kernelEnd 0)
    (hvs : ∀ v ∈ vs, v < 2 ^ 32) (hd : RoundsDirect k s vs) : RoundsDirect k s' vs := by
  induction vs generalizing s s' with
  | nil => exact KernelInPlace.congr hd h.walks
  | cons v vs ih =>
    have hv := hvs v List.mem_cons_self
    have hsound := (mapUserPage_outcome hs h0 hv).sound hs
    refine ⟨⟨hd.1.kernel.congr h.walks, fun p hp => ?_⟩, ih (sameTables_mapUserPage h hs h0 hv)
      hsound (fun w hw => hvs w (List.mem_cons_of_mem v hw)) hd.2⟩
    rw [sameTables_framesTouched h hs h0 hv] at hp
    exact (hd.1.frames p hp).congr (h.walks _ (page_lt (framesTouched_lt hp)))

end SameTables

end DirectRounds
