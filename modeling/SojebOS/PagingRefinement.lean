import SojebOS.PagingWalks

/-!
# Mapping a user page is a grant

`space` forgets the words in memory. A round of `paging_map_user_memory` takes a frame for
the page, and one for a table where the slot has none; no write of it hits another table or
a frame in use.
-/
namespace PagingRefinement

open ByteMemory PageFrames Paging PagingWalks

section Grants

variable {k : KernelImage} {s s' : State} {d t page f v : ℕ}

theorem userFrame_congr (h : ∀ q < 2 ^ 20, walk k s' q = walk k s q) :
    userFrame k s' = userFrame k s := by
  funext q
  by_cases hq : q < 2 ^ 20
  · simp only [userFrame, h q hq]
  · simp only [userFrame, hq, false_and, if_false]

theorem space_congr (hbits : s'.frameBitmap = s.frameBitmap)
    (htables : tableFrame k s' = tableFrame k s)
    (hwalk : ∀ q < 2 ^ 20, walk k s' q = walk k s q) : space k s' = space k s := by
  simp only [space, htables, userFrame_congr hwalk, bitmapTest, hbits]

/-- The bitmap and the walks are the same, whatever the pages hold. -/
structure SameTables (k : KernelImage) (s s' : State) : Prop where
  bitmap : s'.frameBitmap = s.frameBitmap
  tables : tableFrame k s' = tableFrame k s
  walks : ∀ q < 2 ^ 20, walk k s' q = walk k s q

theorem SameTables.refl (k : KernelImage) (s : State) : SameTables k s s :=
  ⟨rfl, rfl, fun _ _ => rfl⟩

theorem SameTables.trans {s'' : State} (h : SameTables k s s') (h' : SameTables k s' s'') :
    SameTables k s s'' where
  bitmap := h'.bitmap.trans h.bitmap
  tables := h'.tables.trans h.tables
  walks := fun q hq => (h'.walks q hq).trans (h.walks q hq)

theorem SameTables.bitmapTest_eq (h : SameTables k s s') : bitmapTest s' = bitmapTest s := by
  funext f
  rw [bitmapTest, bitmapTest, h.bitmap]

theorem SameTables.space_eq (h : SameTables k s s') : space k s' = space k s :=
  space_congr h.bitmap h.tables h.walks

theorem SameTables.sound (h : SameTables k s s') (hs : Sound k s) : Sound k s' :=
  hs.congr h.space_eq

theorem SameTables.userFrame_eq (h : SameTables k s s') : userFrame k s' = userFrame k s :=
  userFrame_congr h.walks

theorem space_bitmapSet (k : KernelImage) (s : State) (f : ℕ) :
    space k (bitmapSet s f) = (space k s).hold f := by
  simp only [space, AddressSpace.Space.hold, AddressSpace.Space.mk.injEq]
  refine ⟨?_, rfl, rfl⟩
  ext g
  change (_ → _) ↔ g = f ∨ (_ → _)
  rw [bitmapTest_set, Bool.or_eq_true, decide_eq_true_eq]
  tauto

theorem space_attachTable (h : Sound k s) (hd : d < 1024) (hnone : tableFrame k s d = none)
    (ht : t < 2 ^ 20) (hdir : k.directoryFrame ≠ t) (htable : ∀ d, tableFrame k s d ≠ some t) :
    space k (attachTable k s d (4096 * t)) = (space k s).attach d t := by
  have hwalk : ∀ q < 2 ^ 20, walk k (attachTable k s d (4096 * t)) q = walk k s q :=
    fun q hq => attachTable_walk h.tablesApart hd hnone ht hdir htable hq
  simp only [space, AddressSpace.Space.attach, attachTable_tableFrame hd ht hdir,
    userFrame_congr hwalk]
  rfl

theorem user_word_lt (hf : f < totalFrames) : 4096 * f + 7 < 2 ^ 32 := by
  norm_num at hf ⊢
  omega

theorem space_setTableEntry (h : Sound k s) (ht : tableFrame k s (page / 1024) = some t)
    (hpage : page < 2 ^ 20) (hf : f < totalFrames) :
    space k (setTableEntry s (4096 * t) (page % 1024) (4096 * f + 7)) =
      (space k s).point page f := by
  have hword := user_word_lt hf
  obtain ⟨htables, hwalk⟩ := setTableEntry_walk h.tablesApart ht hpage hword
  have huser : userFrame k (setTableEntry s (4096 * t) (page % 1024) (4096 * f + 7)) =
      Function.update (userFrame k s) page (some f) := by
    funext q
    by_cases hq : q = page
    · subst hq
      rw [Function.update_self]
      exact userFrame_of_word hpage ((hwalk q hpage).trans (if_pos rfl))
    · rw [Function.update_of_ne hq]
      by_cases hlt : q < 2 ^ 20
      · rw [userFrame, hwalk q hlt, if_neg hq]
        rfl
      · simp only [userFrame, hlt, false_and, if_false]
  simp only [space, AddressSpace.Space.point, htables, huser]
  rfl

/-- A write inside a frame that is neither the directory nor a table changes no walk. -/
theorem sameTables_write {m : Bytes} (hm : ∀ g, g ≠ f → FrameKept s.memory m g)
    (hdir : k.directoryFrame ≠ f) (htable : ∀ d, tableFrame k s d ≠ some f) :
    SameTables k s { s with memory := m } := by
  have htables : tableFrame k { s with memory := m } = tableFrame k s :=
    tableFrame_congr (hm _ hdir)
  refine ⟨rfl, htables, fun q hq => walk_congr hq htables fun t ht => ?_⟩
  exact hm t fun e => htable _ (e ▸ ht)

/-- Page `page` gets the free frame `f`, cleared; frames in use keep their bytes. -/
structure Mapped (k : KernelImage) (s : State) (page f : ℕ) (s' : State) : Prop where
  free : f ∉ (space k s).held
  walk_eq : ∀ q < 2 ^ 20, walk k s' q = if q = page then 4096 * f + 7 else walk k s q
  cleared : ∀ i < 4096, s'.memory (4096 * f + i) = 0
  kept : ∀ g ∈ (space k s).held, g ≠ k.directoryFrame → (∀ d, tableFrame k s d ≠ some g) →
    FrameKept s.memory s'.memory g

/-- What a round of `paging_map_user_memory` can do to page `page`. -/
inductive PageOutcome (k : KernelImage) (s : State) (page : ℕ) : State → Prop where
  | refused (hfull : ∀ f, f ∈ (space k s).held) : PageOutcome k s page s
  | stranded (f : ℕ) (s' : State) (hf : f ∉ (space k s).held)
      (hs : tableFrame k s (page / 1024) = none) (hfull : ∀ g, g ∈ ((space k s).hold f).held)
      (hspace : space k s' = (space k s).hold f)
      (hwalk : ∀ q < 2 ^ 20, walk k s' q = walk k s q) : PageOutcome k s page s'
  | placed (f t : ℕ) (s' : State) (hs : tableFrame k s (page / 1024) = some t)
      (hspace : space k s' = ((space k s).hold f).point page f)
      (hmap : Mapped k s page f s') : PageOutcome k s page s'
  | grown (f t : ℕ) (s' : State) (hs : tableFrame k s (page / 1024) = none)
      (ht : t ∉ ((space k s).hold f).held)
      (hspace : space k s' = (((space k s).hold f).hold t |>.attach (page / 1024) t).point page f)
      (hmap : Mapped k s page f s') : PageOutcome k s page s'

theorem allocFrame_space (k : KernelImage) (s : State) :
    (allocFrame s = (0, s) ∧ ∀ f, f ∈ (space k s).held) ∨
    ∃ f, f ∉ (space k s).held ∧ allocFrame s = (4096 * f, bitmapSet s f) := by
  rcases allocFrame_lowest s with ⟨he, hall⟩ | ⟨f, hf, hfree, -, he⟩
  · exact Or.inl ⟨he, hall⟩
  · exact Or.inr ⟨f, not_mem_held.mpr ⟨hf, hfree⟩, he⟩

theorem frame_lt (hf : f ∉ (space k s).held) : f < 2 ^ 20 := by
  have hlt := (not_mem_held.mp hf).1
  norm_num at hlt ⊢
  omega

def takeFrame (s : State) (f : ℕ) : State :=
  { bitmapSet s f with memory := copyIn s.memory (4096 * f) 4096 (fun _ => 0) }

theorem takeFrame_space (h : Sound k s) (hf : f ∉ (space k s).held) :
    space k (takeFrame s f) = (space k s).hold f ∧
      ∀ q < 2 ^ 20, walk k (takeFrame s f) q = walk k s q := by
  have hwrite : SameTables k (bitmapSet s f) (takeFrame s f) :=
    sameTables_write (fun g hg => copyIn_frameKept s.memory _ hg) (h.directory_ne hf)
      (h.table_kept hf)
  exact ⟨hwrite.space_eq.trans (space_bitmapSet k s f), hwrite.walks⟩

theorem takeFrame_tableFrame (h : Sound k s) (hf : f ∉ (space k s).held) :
    tableFrame k (takeFrame s f) = tableFrame k s :=
  congrArg AddressSpace.Space.table (takeFrame_space h hf).1

theorem takeFrame_kept (s : State) {f g : ℕ} (hg : g ≠ f) :
    FrameKept s.memory (takeFrame s f).memory g :=
  copyIn_frameKept s.memory (fun _ => 0) hg

theorem takeFrame_cleared (s : State) (f : ℕ) {i : ℕ} (hi : i < 4096) :
    (takeFrame s f).memory (4096 * f + i) = 0 := by
  have hin : 4096 * f ≤ 4096 * f + i ∧ 4096 * f + i < 4096 * f + 4096 := by omega
  calc copyIn s.memory (4096 * f) 4096 (fun _ => 0) (4096 * f + i)
      = (fun _ => 0) (4096 * f + i - 4096 * f) := copyIn_inside hin
    _ = 0 := rfl

theorem placed_bitmapTest (s : State) (f a i x g : ℕ) :
    bitmapTest (setTableEntry (takeFrame s f) a i x) g = (decide (g = f) || bitmapTest s g) :=
  bitmapTest_set s f g

theorem takeFrame_placed (h : Sound k s) (hf : f ∉ (space k s).held) (hpage : page < 2 ^ 20)
    (hs : tableFrame k s (page / 1024) = some t) :
    PageOutcome k s page
      (setTableEntry (takeFrame s f) (4096 * t) (page % 1024) (4096 * f + 7)) := by
  obtain ⟨hspace, hwalk⟩ := takeFrame_space h hf
  have hsound := h.hold hspace
  have hlt := (not_mem_held.mp hf).1
  have hword := user_word_lt hlt
  have hs' : tableFrame k (takeFrame s f) (page / 1024) = some t := by
    rw [takeFrame_tableFrame h hf]
    exact hs
  have hi : page % 1024 < 1024 := Nat.mod_lt _ (by norm_num)
  have hstore : ∀ g, g ≠ t → FrameKept (takeFrame s f).memory
      (setTableEntry (takeFrame s f) (4096 * t) (page % 1024) (4096 * f + 7)).memory g :=
    fun g hg => store32_frameKept _ _ hi hg
  have hft : f ≠ t := fun e => h.table_kept hf _ (e ▸ hs)
  refine PageOutcome.placed f t _ hs ?_ ⟨hf, ?_, ?_, ?_⟩
  · rw [← hspace]
    exact space_setTableEntry hsound hs' hpage hlt
  · intro q hq
    rw [(setTableEntry_walk hsound.tablesApart hs' hpage hword).2 q hq, hwalk q hq]
  · intro i hi'
    rw [(hstore f hft).byte hi']
    exact takeFrame_cleared s f hi'
  · intro g hg hdir htable
    have hgf : g ≠ f := fun e => hf (e ▸ hg)
    have hgt : g ≠ t := fun e => htable _ (e ▸ hs)
    exact (takeFrame_kept s hgf).trans (hstore g hgt)

theorem attachTable_grown (h : Sound k s) {d : ℕ} (hd : d < 1024)
    (hnone : tableFrame k s d = none) (ht : t ∉ (space k s).held) :
    space k (attachTable k (bitmapSet s t) d (4096 * t)) =
        ((space k s).hold t).attach d t ∧
      Sound k (attachTable k (bitmapSet s t) d (4096 * t)) ∧
      tableFrame k (attachTable k (bitmapSet s t) d (4096 * t)) d = some t ∧
      ∀ q < 2 ^ 20, walk k (attachTable k (bitmapSet s t) d (4096 * t)) q = walk k s q := by
  have hdir := h.directory_ne ht
  have hmark := space_bitmapSet k s t
  have hmarked : Sound k (bitmapSet s t) := h.hold hmark
  have htable : ∀ d, tableFrame k (bitmapSet s t) d ≠ some t := h.table_kept ht
  have hattach := space_attachTable hmarked hd hnone (frame_lt ht) hdir htable
  refine ⟨?_, ?_, ?_, ?_⟩
  · rw [hattach, hmark]
  · apply hmarked.attach hattach _ htable _ hdir
    · rw [hmark]
      exact Set.mem_insert t _
    · exact h.isolated.page_ne ht
  · rw [attachTable_tableFrame hd (frame_lt ht) hdir, Function.update_self]
  · intro q hq
    exact attachTable_walk hmarked.tablesApart hd hnone (frame_lt ht) hdir htable hq

theorem takeFrame_grown (h : Sound k s) (hf : f ∉ (space k s).held) (hpage : page < 2 ^ 20)
    (hs : tableFrame k s (page / 1024) = none) (ht : t ∉ (space k (takeFrame s f)).held) :
    PageOutcome k s page
      (setTableEntry (attachTable k (bitmapSet (takeFrame s f) t) (page / 1024) (4096 * t))
        (4096 * t) (page % 1024) (4096 * f + 7)) := by
  obtain ⟨hspace, hwalk⟩ := takeFrame_space h hf
  have hsound := h.hold hspace
  have hlt := (not_mem_held.mp hf).1
  have hword := user_word_lt hlt
  have hslot : page / 1024 < 1024 := by omega
  have hnone : tableFrame k (takeFrame s f) (page / 1024) = none := by
    rw [takeFrame_tableFrame h hf]
    exact hs
  obtain ⟨hattach, hgrown, hs', hcleared⟩ := attachTable_grown hsound hslot hnone ht
  have hi : page % 1024 < 1024 := Nat.mod_lt _ (by norm_num)
  have hstores : ∀ g, g ≠ t → g ≠ k.directoryFrame → FrameKept (takeFrame s f).memory
      (setTableEntry (attachTable k (bitmapSet (takeFrame s f) t) (page / 1024) (4096 * t))
        (4096 * t) (page % 1024) (4096 * f + 7)).memory g := by
    intro g hgt hgd
    have hfill := fillWords_frameKept (takeFrame s f).memory (fun _ => 0) hgt
    have hentry := store32_frameKept (fillWords (takeFrame s f).memory (4096 * t) (fun _ => 0) 1024)
      (4096 * t ||| (pagePresent ||| pageRw ||| pageUser)) hslot hgd
    exact (hfill.trans hentry).trans (store32_frameKept _ _ hi hgt)
  have htf : t ∉ ((space k s).hold f).held := hspace ▸ ht
  have hft : f ≠ t := fun e => htf (e ▸ Set.mem_insert f _)
  refine PageOutcome.grown f t _ hs htf ?_ ⟨hf, ?_, ?_, ?_⟩
  · rw [← hspace, ← hattach]
    exact space_setTableEntry hgrown hs' hpage hlt
  · intro q hq
    rw [(setTableEntry_walk hgrown.tablesApart hs' hpage hword).2 q hq, hcleared q hq, hwalk q hq]
  · intro i hi'
    rw [(hstores f hft (h.directory_ne hf).symm).byte hi']
    exact takeFrame_cleared s f hi'
  · intro g hg hgd _
    have hgf : g ≠ f := fun e => hf (e ▸ hg)
    have hgt : g ≠ t := fun e => htf (Set.mem_insert_of_mem f (e ▸ hg))
    exact (takeFrame_kept s hgf).trans (hstores g hgt hgd)

theorem mapUserPage_take (h : Sound k s) (h0 : ¬Pool k.kernelEnd 0) (hf : f ∉ (space k s).held)
    (he : allocFrame s = (4096 * f, bitmapSet s f)) (v : ℕ) :
    mapUserPage k s v =
      mapPage k (takeFrame s f) (4096 * f) v (pagePresent ||| pageRw ||| pageUser) := by
  simp only [mapUserPage, he, h.frame_pos h0 hf, if_false]
  rfl

theorem mapUserPage_present (h : Sound k s) (h0 : ¬Pool k.kernelEnd 0)
    (hf : f ∉ (space k s).held) (he : allocFrame s = (4096 * f, bitmapSet s f))
    (hs : tableFrame k s (v / 4096 / 1024) = some t) :
    mapUserPage k s v =
      setTableEntry (takeFrame s f) (4096 * t) (v / 4096 % 1024) (4096 * f + 7) := by
  rw [← takeFrame_tableFrame h hf] at hs
  rw [mapUserPage_take h h0 hf he, mapPage_present hs, user_word (frame_lt hf)]

theorem mapUserPage_absent (h : Sound k s) (h0 : ¬Pool k.kernelEnd 0) (hf : f ∉ (space k s).held)
    (he : allocFrame s = (4096 * f, bitmapSet s f)) (hv : v < 2 ^ 32)
    (hs : tableFrame k s (v / 4096 / 1024) = none) :
    mapUserPage k s v =
      if (allocFrame (takeFrame s f)).1 = 0 then (allocFrame (takeFrame s f)).2
      else setTableEntry (attachTable k (allocFrame (takeFrame s f)).2 (v / 4096 / 1024)
        (allocFrame (takeFrame s f)).1) (allocFrame (takeFrame s f)).1 (v / 4096 % 1024)
        (4096 * f + 7) := by
  rw [← takeFrame_tableFrame h hf] at hs
  rw [mapUserPage_take h h0 hf he, mapPage_absent hv hs, user_word (frame_lt hf)]

theorem mapUserPage_outcome (h : Sound k s) (h0 : ¬Pool k.kernelEnd 0) (hv : v < 2 ^ 32) :
    PageOutcome k s (v / 4096) (mapUserPage k s v) := by
  have hpage : v / 4096 < 2 ^ 20 := by omega
  rcases allocFrame_space k s with ⟨he, hfull⟩ | ⟨f, hf, he⟩
  · have hmap : mapUserPage k s v = s := by
      simp only [mapUserPage, he, if_true]
    rw [hmap]
    exact PageOutcome.refused hfull
  · obtain ⟨hspace, hwalk⟩ := takeFrame_space h hf
    have hsound := h.hold hspace
    cases hs : tableFrame k s (v / 4096 / 1024) with
    | some t =>
      rw [mapUserPage_present h h0 hf he hs]
      exact takeFrame_placed h hf hpage hs
    | none =>
      rw [mapUserPage_absent h h0 hf he hv hs]
      rcases allocFrame_space k (takeFrame s f) with ⟨he', hfull⟩ | ⟨t, ht, he'⟩
      · rw [he', if_pos rfl]
        exact PageOutcome.stranded f _ hf hs (hspace ▸ hfull) hspace hwalk
      · rw [he', if_neg (hsound.frame_pos h0 ht)]
        exact takeFrame_grown h hf hpage hs ht

theorem PageOutcome.granted (h : PageOutcome k s page s') :
    AddressSpace.Granted (· / 1024) page (space k s) (space k s') := by
  cases h with
  | refused => exact AddressSpace.Granted.refused
  | stranded f _ hf hs _ hspace =>
    rw [hspace]
    exact AddressSpace.Granted.stranded f hf hs
  | placed f t _ hs hspace hmap =>
    rw [hspace]
    exact AddressSpace.Granted.placed f t hmap.free hs
  | grown f t _ hs ht hspace hmap =>
    rw [hspace]
    exact AddressSpace.Granted.grown f t hmap.free ht hs

theorem PageOutcome.directory_apart (hout : PageOutcome k s page s') (h : Sound k s) (d : ℕ) :
    tableFrame k s' d ≠ some k.directoryFrame := by
  cases hout with
  | refused => exact h.directory_apart d
  | stranded f _ _ _ _ hspace => exact (h.hold hspace).directory_apart d
  | placed f t _ _ hspace =>
    have htables : tableFrame k s' = tableFrame k s := congrArg AddressSpace.Space.table hspace
    rw [htables]
    exact h.directory_apart d
  | grown f t _ _ ht hspace =>
    intro e
    have htables : tableFrame k s' = Function.update (tableFrame k s) (page / 1024) (some t) :=
      congrArg AddressSpace.Space.table hspace
    rw [htables] at e
    rcases AddressSpace.update_some e with ⟨-, e'⟩ | hold
    · exact ht (Set.mem_insert_of_mem f (h.isolated.kept_held (e' ▸ k.directory_kept)))
    · exact h.directory_apart d hold

theorem PageOutcome.sound (hout : PageOutcome k s page s') (h : Sound k s) : Sound k s' :=
  ⟨hout.granted.isolated h.isolated, hout.directory_apart h⟩

theorem PageOutcome.mapped (h : PageOutcome k s page s') (hfree : f ∉ (space k s).held)
    (hs : tableFrame k s (page / 1024) = some t) : ∃ g, Mapped k s page g s' := by
  cases h with
  | refused hfull => exact absurd (hfull f) hfree
  | stranded _ _ _ hnone => exact absurd (hs ▸ hnone) (Option.some_ne_none t)
  | placed g _ _ _ _ hmap => exact ⟨g, hmap⟩
  | grown g _ _ _ _ _ hmap => exact ⟨g, hmap⟩

end Grants

end PagingRefinement
