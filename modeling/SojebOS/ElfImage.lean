import SojebOS.DirectRounds
import SojebOS.ElfHeaders
import SojebOS.SegmentOverlay
import SojebOS.UserMemory

/-!
# The image that the loader builds

Loading a segment gives fresh cleared frames to all pages it meets, and so blanks what an
earlier segment had put on a page they share. Over the whole loop that is the only damage.
-/
namespace ElfImage

open ByteMemory MachineWord Paging PagingWalks PagingInit FrameSupply UserMemory KernelMapping
open ElfLoader ElfHeaders SegmentOverlay UserIsolation PagingRefinement DirectAccess DirectRounds
open TranslatedPaging (writeVirtual)

/-- Byte `i` of a segment in memory: the file's, then zeros. -/
def imageByte (content : Bytes) (ph : ProgramHeader) (i : ℕ) : UInt8 :=
  if i < ph.pFilesz then content (ph.pOffset + i) else 0

def segmentRange (ph : ProgramHeader) : Set ℕ :=
  { x | ph.pVaddr ≤ x ∧ x < ph.pVaddr + ph.pMemsz }

def segmentPages (ph : ProgramHeader) : Set ℕ :=
  { x | 0 < ph.pMemsz ∧ ph.pVaddr / 4096 ≤ x / 4096 ∧
      x / 4096 ≤ (ph.pVaddr + ph.pMemsz - 1) / 4096 }

def patch (content : Bytes) (ph : ProgramHeader) : Patch ℕ (Option UInt8) where
  range := segmentRange ph
  blanked := segmentPages ph
  value := fun x => some (imageByte content ph (x - ph.pVaddr))

def loadedPages (segs : List ProgramHeader) : List ℕ :=
  segs.flatMap fun ph => if ph.pMemsz = 0 then [] else userPages ph.pVaddr ph.pMemsz

/-- A segment inside the file, above the identity map and below the user stack. -/
structure Loadable (size : ℕ) (ph : ProgramHeader) : Prop where
  filesz_le : ph.pFilesz ≤ ph.pMemsz
  in_file : ph.pOffset + ph.pFilesz ≤ size
  placed : ∀ x ∈ segmentRange ph, 0x1000000 ≤ x ∧ x < userStackBottom

def SegmentLoaded (k : KernelImage) (s : State) (content : Bytes) (ph : ProgramHeader) : Prop :=
  ∀ i < ph.pMemsz,
    (translate k s (ph.pVaddr + i)).map s.memory = some (imageByte content ph i)

/-- A later segment meets no page on which the earlier one has a byte other than 0. -/
def KeepsImage (content : Bytes) (a b : ProgramHeader) : Prop :=
  ∀ i < a.pMemsz, a.pVaddr + i ∈ segmentPages b → imageByte content a i = 0

section Loading

variable {k : KernelImage} {s : State} {content : Bytes} {file : OpenFile} {size : ℕ}
variable {ph : ProgramHeader} {segs : List ProgramHeader} {ws : List ℕ}

theorem loadedPages_cons (ph : ProgramHeader) (segs : List ProgramHeader) :
    loadedPages (ph :: segs) = loadedPages [ph] ++ loadedPages segs := by
  simp only [loadedPages, List.flatMap_cons, List.flatMap_nil, List.append_nil]

theorem loadedPages_lt {v : ℕ} (hv : v ∈ loadedPages segs) : v < 2 ^ 32 := by
  obtain ⟨ph, -, hmem⟩ := List.mem_flatMap.mp hv
  split at hmem
  · exact absurd hmem List.not_mem_nil
  · exact userPages_lt hmem

theorem loadedPages_one (ph : ProgramHeader) :
    loadedPages [ph] = visited ph.pVaddr ph.pMemsz :=
  List.flatMap_singleton _ _

theorem Loadable.end_le (h : Loadable size ph) (hpos : 0 < ph.pMemsz) :
    ph.pVaddr + ph.pMemsz ≤ userStackBottom := by
  have hlast := h.placed (ph.pVaddr + ph.pMemsz - 1) ⟨by omega, by omega⟩
  omega

theorem mem_segmentPages (h : Loadable size ph) (hpos : 0 < ph.pMemsz) (x : ℕ) :
    (∃ v ∈ userPages ph.pVaddr ph.pMemsz, v / 4096 = x / 4096) ↔ x ∈ segmentPages ph := by
  have hend := h.end_le hpos
  norm_num at hend
  rw [userPages_eq (by omega), u32_of_lt (by omega)]
  simp only [segmentPages, Set.mem_ofPred_eq, List.mem_map, List.mem_range]
  constructor
  · intro hv
    obtain ⟨v, ⟨i, hi, rfl⟩, he⟩ := hv
    omega
  · intro hx
    refine ⟨_, ⟨x / 4096 - ph.pVaddr / 4096, ?_, rfl⟩, ?_⟩ <;> omega

theorem readVirtual_user (h : Sound k s) (hserves : Serves file size content)
    (hsize : size < 2 ^ 32) {offset n a : ℕ} (hin : offset + n ≤ size) (ha : a + n ≤ 2 ^ 32)
    (hu : ∀ i < n, userByte k s (a + i) ≠ none) :
    ∃ s', readVirtual k s file offset n a = some s' ∧ SameTables k s s' ∧
      ∀ x, userByte k s' x =
        if a ≤ x ∧ x < a + n then some (content (offset + (x - a))) else userByte k s x := by
  have hread : file offset n = (List.range n).map fun i => content (offset + i) := by
    rw [hserves offset n (by omega), Nat.min_eq_left (by omega)]
  have hlen : (file offset n).length = n := by rw [hread, List.length_map, List.length_range]
  obtain ⟨s', hrun, hsame, hbytes⟩ :=
    writeVirtual_user h (fun i => (file offset n).getD i 0) ha hu
  refine ⟨s', by rw [readVirtual, hlen]; exact hrun, hsame, fun x => ?_⟩
  rw [hbytes x]
  by_cases hx : a ≤ x ∧ x < a + n
  · have hi : x - a < n := by omega
    rw [if_pos hx, if_pos hx, hread, List.getD_eq_getElem?_getD, List.getElem?_map,
      List.getElem?_range hi]
    rfl
  · rw [if_neg hx, if_neg hx]

theorem readVirtual_nothing (hserves : Serves file size content) {offset a : ℕ}
    (hin : offset < 2 ^ 32) : readVirtual k s file offset 0 a = some s := by
  have hnone : file offset 0 = [] := by
    rw [hserves offset 0 hin, Nat.zero_min]
    rfl
  rw [readVirtual, hnone]
  rfl

theorem fillSegment_user (h : Sound k s) (hserves : Serves file size content)
    (hsize : size < 2 ^ 32) (hph : Loadable size ph) (hend : ph.pVaddr + ph.pMemsz ≤ 2 ^ 32)
    (hmapped : ∀ i < ph.pMemsz, userByte k s (ph.pVaddr + i) ≠ none) :
    ∃ s', ((writeVirtual k s ph.pVaddr (fun _ => 0) ph.pMemsz).bind fun s =>
        if 0 < ph.pFilesz then readVirtual k s file ph.pOffset ph.pFilesz ph.pVaddr
        else some s) = some s' ∧
      SameTables k s s' ∧
      ∀ x, userByte k s' x =
        if ph.pVaddr ≤ x ∧ x < ph.pVaddr + ph.pMemsz then
          some (imageByte content ph (x - ph.pVaddr))
        else userByte k s x := by
  have hle := hph.filesz_le
  obtain ⟨s₁, hrun₁, hsame₁, hbytes₁⟩ := writeVirtual_user h (fun _ => 0) hend hmapped
  have hmapped₁ : ∀ i < ph.pFilesz, userByte k s₁ (ph.pVaddr + i) ≠ none := by
    intro i hi
    rw [hbytes₁, if_pos (by omega)]
    exact Option.some_ne_none 0
  obtain ⟨s₂, hrun₂, hsame₂, hbytes₂⟩ :=
    readVirtual_user (hsame₁.sound h) hserves hsize hph.in_file (by omega) hmapped₁
  refine ⟨s₂, ?_, hsame₁.trans hsame₂, fun x => ?_⟩
  · rw [hrun₁, Option.bind_some]
    by_cases hfile : 0 < ph.pFilesz
    · rw [if_pos hfile]
      exact hrun₂
    · have hzero : ph.pFilesz = 0 := by omega
      have hoff : ph.pOffset < 2 ^ 32 := by
        have hin := hph.in_file
        omega
      rw [hzero, readVirtual_nothing hserves hoff] at hrun₂
      rw [if_neg hfile]
      exact hrun₂
  · rw [hbytes₂, hbytes₁]
    by_cases hin : ph.pVaddr ≤ x ∧ x < ph.pVaddr + ph.pMemsz
    · rw [if_pos hin, if_pos hin, imageByte]
      by_cases hfile : x - ph.pVaddr < ph.pFilesz
      · rw [if_pos (by omega), if_pos hfile]
      · rw [if_neg (by omega), if_neg hfile]
    · rw [if_neg (by omega), if_neg hin, if_neg hin]

theorem loadProgramHeader_empty (hph : Loadable size ph) (hempty : ph.pMemsz = 0) :
    loadProgramHeader k file s ph = some s := by
  have hfile : ph.pFilesz = 0 := Nat.le_zero.mp (hempty ▸ hph.filesz_le)
  unfold loadProgramHeader
  split
  · rw [hempty, hfile]
    rfl
  · rfl

theorem patch_empty (hempty : ph.pMemsz = 0) (m : ℕ → Option UInt8) :
    Lays (some 0) (patch content ph) m m := by
  refine ⟨?_, ?_, fun _ _ _ => rfl⟩
  · intro x hx
    have hin : ph.pVaddr ≤ x ∧ x < ph.pVaddr + ph.pMemsz := hx
    omega
  · intro x _ hx
    have hpos : 0 < ph.pMemsz := hx.1
    omega

theorem loadProgramHeader_lays (h : Sound k s) (h0 : ¬Pool k.kernelEnd 0)
    (hserves : Serves file size content) (hsize : size < 2 ^ 32) (htype : ph.pType = ptLoad)
    (hph : Loadable size ph) (hneed : framesNeeded k s (loadedPages [ph] ++ ws) ≤ freeFrames s)
    (hws : ∀ v ∈ ws, v < 2 ^ 32) (hdirect : RoundsDirect k s (loadedPages [ph] ++ ws)) :
    ∃ s', loadProgramHeader k file s ph = some s' ∧ Sound k s' ∧
      framesNeeded k s' ws ≤ freeFrames s' ∧ RoundsDirect k s' ws ∧
      Lays (some 0) (patch content ph) (userByte k s) (userByte k s') := by
  rw [loadedPages_one, visited] at hneed hdirect
  by_cases hempty : ph.pMemsz = 0
  · rw [if_pos hempty] at hneed hdirect
    exact ⟨s, loadProgramHeader_empty hph hempty, h, hneed, hdirect, patch_empty hempty _⟩
  rw [if_neg hempty] at hneed hdirect
  obtain ⟨hfirst, hrest⟩ := roundsDirect_append.mp hdirect
  have hpos := Nat.pos_of_ne_zero hempty
  have hend := hph.end_le hpos
  norm_num at hend
  -- the pages get cleared frames
  obtain ⟨hsound₁, hneed₁, hbytes₁⟩ := rounds_supplied h h0 (fun v hv => userPages_lt hv) hneed
  generalize hs₁ : (userPages ph.pVaddr ph.pMemsz).foldl (mapUserPage k) s = s₁ at *
  have hmapped : ∀ i < ph.pMemsz, userByte k s₁ (ph.pVaddr + i) ≠ none := by
    intro i hi
    rw [hbytes₁, if_pos ((mem_segmentPages hph hpos _).mpr ⟨hpos, by omega, by omega⟩)]
    exact Option.some_ne_none 0
  -- and are filled
  obtain ⟨s₂, hrun, hsame, hbytes⟩ :=
    fillSegment_user hsound₁ hserves hsize hph (by omega) hmapped
  obtain ⟨hneed₂, hfree₂⟩ := supply_congr hsame ws
  refine ⟨s₂, ?_, hsame.sound hsound₁, by omega, hrest.congr hsame hsound₁ h0 hws, ?_, ?_, ?_⟩
  · rw [loadProgramHeader, if_pos htype, TranslatedPaging.pagingMapUserMemory, if_neg hempty,
      rounds_direct h h0 (fun v hv => userPages_lt hv) hfirst, hs₁]
    exact hrun
  · intro x hx
    exact (hbytes x).trans (if_pos hx)
  · intro x hx hblank
    apply (hbytes x).trans ((if_neg hx).trans _)
    rw [hbytes₁, if_pos ((mem_segmentPages hph hpos x).mpr hblank)]
  · intro x hx hblank
    apply (hbytes x).trans ((if_neg hx).trans _)
    rw [hbytes₁, if_neg fun he => hblank ((mem_segmentPages hph hpos x).mp he)]

theorem loadSegments_overlays (h : Sound k s) (h0 : ¬Pool k.kernelEnd 0)
    (hserves : Serves file size content) (hsize : size < 2 ^ 32)
    (htype : ∀ ph ∈ segs, ph.pType = ptLoad) (hph : ∀ ph ∈ segs, Loadable size ph)
    (hneed : framesNeeded k s (loadedPages segs) ≤ freeFrames s)
    (hdirect : RoundsDirect k s (loadedPages segs)) :
    ∃ s', segs.foldlM (loadProgramHeader k file) s = some s' ∧ Sound k s' ∧
      Overlays (some 0) (segs.map (patch content)) (userByte k s) (userByte k s') := by
  induction segs generalizing s with
  | nil => exact ⟨s, rfl, h, Overlays.nil _⟩
  | cons ph segs ih =>
    rw [loadedPages_cons] at hneed hdirect
    obtain ⟨s₁, hrun, hsound, hsupply, hrounds, hlays⟩ := loadProgramHeader_lays h h0 hserves hsize
      (htype ph List.mem_cons_self) (hph ph List.mem_cons_self) hneed
      (fun v hv => loadedPages_lt hv) hdirect
    obtain ⟨s', hrest, hsound', hover⟩ := ih hsound
      (fun p hp => htype p (List.mem_cons_of_mem ph hp))
      (fun p hp => hph p (List.mem_cons_of_mem ph hp)) hsupply hrounds
    refine ⟨s', ?_, hsound', Overlays.cons hlays hover⟩
    rw [List.foldlM_cons, hrun]
    exact hrest

theorem spared_iff (content : Bytes) (a b : ProgramHeader) :
    Spared (some 0) (patch content a) (patch content b) ↔ KeepsImage content a b := by
  constructor
  · intro h i hi hpage
    have hx := h (a.pVaddr + i) ⟨Nat.le_add_right _ _, by omega⟩ hpage
    simp only [patch, Nat.add_sub_cancel_left, Option.some.injEq] at hx
    exact hx
  · intro h x hx hpage
    have hin : a.pVaddr ≤ x ∧ x < a.pVaddr + a.pMemsz := hx
    have hsum : a.pVaddr + (x - a.pVaddr) = x := by omega
    exact congrArg some (h (x - a.pVaddr) (by omega) (hsum.symm ▸ hpage))

theorem translate_userByte {x : ℕ} {b : UInt8} (hb : userByte k s x = some b) :
    (translate k s x).map s.memory = userByte k s x := by
  unfold userByte at hb ⊢
  cases hf : userFrame k s (x / 4096) with
  | none =>
    rw [hf] at hb
    cases hb
  | some f =>
    rw [translate_user hf]
    rfl

theorem segmentLoaded_iff {b : ℕ → UInt8}
    (hb : ∀ x ∈ segmentRange ph, userByte k s x = some (b x)) :
    SegmentLoaded k s content ph ↔
      ∀ x ∈ (patch content ph).range, userByte k s x = (patch content ph).value x := by
  constructor
  · intro h x hx
    have hin : ph.pVaddr ≤ x ∧ x < ph.pVaddr + ph.pMemsz := hx
    have hsum : ph.pVaddr + (x - ph.pVaddr) = x := by omega
    have hload := h (x - ph.pVaddr) (by omega)
    rw [hsum, translate_userByte (hb x hx)] at hload
    exact hload
  · intro h i hi
    have hx : ph.pVaddr + i ∈ segmentRange ph := ⟨Nat.le_add_right _ _, by omega⟩
    rw [translate_userByte (hb _ hx), h _ hx]
    simp only [patch, Nat.add_sub_cancel_left]

/-- After the loop every segment is in memory exactly when each was spared by the later ones. -/
theorem loop_loaded_iff (h : Sound k s) (h0 : ¬Pool k.kernelEnd 0)
    (hserves : Serves file size content) (hsize : size < 2 ^ 32) (header : ElfHeader)
    (stack : ℕ → Bytes)
    (hdisj : (segments file stack header).Pairwise
      fun a b => Disjoint (segmentRange a) (segmentRange b))
    (hph : ∀ ph ∈ segments file stack header, Loadable size ph)
    (hneed : framesNeeded k s (loadedPages (segments file stack header)) ≤ freeFrames s)
    (hdirect : RoundsDirect k s (loadedPages (segments file stack header))) :
    ∃ s', programHeaderLoop k file stack header s = some s' ∧
      ((∀ ph ∈ segments file stack header, SegmentLoaded k s' content ph) ↔
        (segments file stack header).Pairwise (KeepsImage content)) := by
  have htype : ∀ ph ∈ segments file stack header, ph.pType = ptLoad := by
    intro ph hmem
    simpa using (List.mem_filter.mp hmem).2
  rw [programHeaderLoop_eq]
  generalize segments file stack header = segs at *
  obtain ⟨s', hrun, -, hover⟩ := loadSegments_overlays h h0 hserves hsize htype hph hneed hdirect
  refine ⟨s', hrun, ?_⟩
  have hdisj' : (segs.map (patch content)).Pairwise fun p q => Disjoint p.range q.range :=
    List.pairwise_map.mpr hdisj
  -- every address of a segment shows some byte of ring 3
  have hbyte : ∀ ph ∈ segs, ∀ x ∈ segmentRange ph, userByte k s' x =
      some ((userByte k s' x).getD 0) := by
    intro ph hmem x hx
    rcases hover.value_or_blank hdisj' _ (List.mem_map_of_mem hmem) x hx with he | he
    · rw [he]
      rfl
    · rw [he]
      rfl
  calc (∀ ph ∈ segs, SegmentLoaded k s' content ph)
      ↔ Shown (segs.map (patch content)) (userByte k s') := by
        rw [Shown, List.forall_mem_map]
        exact forall₂_congr fun ph hmem => segmentLoaded_iff (hbyte ph hmem)
    _ ↔ (segs.map (patch content)).Pairwise (Spared (some 0)) := hover.shown_iff hdisj'
    _ ↔ segs.Pairwise (KeepsImage content) := by
        rw [List.pairwise_map]
        simp only [spared_iff]

end Loading

/-- With enough free frames, and direct rounds, the loop ends, and the loaded image is the file's
exactly when no segment meets a page on which an earlier one has a byte other than 0. -/
theorem image_loaded_iff (k : KernelImage) (h0 : 0 < k.kernelEnd)
    (h64 : k.kernelEnd ≤ maxPhysicalMemory) {s : State} (hs : DirectlyReachable k s)
    {file : OpenFile}
    {size : ℕ} {content : Bytes} (hserves : Serves file size content) (hsize : size < 2 ^ 32)
    (header : ElfHeader) (stack : ℕ → Bytes)
    (hdisj : (segments file stack header).Pairwise
      fun a b => Disjoint (segmentRange a) (segmentRange b))
    (hph : ∀ ph ∈ segments file stack header, Loadable size ph)
    (hfree : framesNeeded k s (loadedPages (segments file stack header)) ≤ freeFrames s)
    (hdirect : RoundsDirect k s (loadedPages (segments file stack header))) :
    ∃ s', programHeaderLoop k file stack header s = some s' ∧
      ((∀ ph ∈ segments file stack header, SegmentLoaded k s' content ph) ↔
        (segments file stack header).Pairwise (KeepsImage content)) := by
  have hpool := zero_not_pool h0 h64
  exact loop_loaded_iff (reachable_sound hpool (hs.reachable hpool)) hpool hserves hsize header
    stack hdisj hph hfree hdirect

section SharedPage

/-- An executable with two segments of four bytes on the page 0x8048000. -/
def sharedPageBytes : List UInt8 :=
  [0x7F, 0x45, 0x4C, 0x46, 1, 1, 1, 0, 0, 0, 0, 0, 0, 0, 0, 0, 2, 0, 3, 0, 1, 0, 0, 0,
   0, 0x80, 0x04, 0x08, 54, 0, 0, 0, 0, 0, 0, 0, 0, 0, 0, 0, 54, 0, 0, 0, 32, 0, 2, 0,
   0, 0, 0, 0, 0, 0,
   1, 0, 0, 0, 118, 0, 0, 0, 0x00, 0x80, 0x04, 0x08, 0, 0, 0, 0, 4, 0, 0, 0, 4, 0, 0, 0,
   5, 0, 0, 0, 0, 0x10, 0, 0,
   1, 0, 0, 0, 122, 0, 0, 0, 0x00, 0x88, 0x04, 0x08, 0, 0, 0, 0, 4, 0, 0, 0, 4, 0, 0, 0,
   6, 0, 0, 0, 0, 0x10, 0, 0,
   0x90, 0x90, 0xEB, 0xFE, 1, 2, 3, 4]

def sharedPageContent : Bytes := fun i => sharedPageBytes.getD i 0

def sharedPageFile : OpenFile := fileOf 126 sharedPageContent

def sharedPageHeader : ElfHeader := readHeader sharedPageFile fun _ => 0

theorem sharedPage_serves : Serves sharedPageFile 126 sharedPageContent := fileOf_serves 126 _

theorem sharedPage_segments : segments sharedPageFile (fun _ _ => 0) sharedPageHeader =
    [⟨1, 118, 0x8048000, 0, 4, 4, 5, 0x1000⟩, ⟨1, 122, 0x8048800, 0, 4, 4, 6, 0x1000⟩] := by
  decide

theorem sharedPage_disjoint : (segments sharedPageFile (fun _ _ => 0) sharedPageHeader).Pairwise
    fun a b => Disjoint (segmentRange a) (segmentRange b) := by
  rw [sharedPage_segments, List.pairwise_pair, Set.disjoint_left]
  intro x ha hb
  have hlow : x < 0x8048000 + 4 := ha.2
  have hhigh : 0x8048800 ≤ x := hb.1
  omega

theorem sharedPage_loadable :
    ∀ ph ∈ segments sharedPageFile (fun _ _ => 0) sharedPageHeader, Loadable 126 ph := by
  rw [sharedPage_segments]
  intro ph hph
  rcases List.mem_pair.mp hph with rfl | rfl
  · refine ⟨le_rfl, by norm_num, fun x hx => ?_⟩
    have hin : 0x8048000 ≤ x ∧ x < 0x8048000 + 4 := hx
    norm_num
    omega
  · refine ⟨le_rfl, by norm_num, fun x hx => ?_⟩
    have hin : 0x8048800 ≤ x ∧ x < 0x8048800 + 4 := hx
    norm_num
    omega

theorem sharedPage_supplied : framesNeeded bootImage (pagingInit bootImage fun _ => 0)
    (loadedPages (segments sharedPageFile (fun _ _ => 0) sharedPageHeader)) ≤
      freeFrames (pagingInit bootImage fun _ => 0) := by
  refine (framesNeeded_le _ _ _).trans ?_
  rw [freeFrames_pagingInit, sharedPage_segments]
  decide

theorem sharedPage_direct : RoundsDirect bootImage (pagingInit bootImage fun _ => 0)
    (loadedPages (segments sharedPageFile (fun _ _ => 0) sharedPageHeader)) := by
  have hpages : loadedPages (segments sharedPageFile (fun _ _ => 0) sharedPageHeader) =
      [0x8048000, 0x8048000] := by
    rw [sharedPage_segments]
    decide
  rw [hpages]
  exact boot_rounds_direct (by decide) (by decide)

theorem image_loaded_iff_sharedPage :
    ∃ s', programHeaderLoop bootImage sharedPageFile (fun _ _ => 0) sharedPageHeader
        (pagingInit bootImage fun _ => 0) = some s' ∧
      ((∀ ph ∈ segments sharedPageFile (fun _ _ => 0) sharedPageHeader,
          SegmentLoaded bootImage s' sharedPageContent ph) ↔
        (segments sharedPageFile (fun _ _ => 0) sharedPageHeader).Pairwise
          (KeepsImage sharedPageContent)) :=
  image_loaded_iff bootImage (by decide) (by decide) (.init fun _ => 0)
    sharedPage_serves (by norm_num) _ _ sharedPage_disjoint sharedPage_loadable
    sharedPage_supplied sharedPage_direct

/-- The second segment's page clears the first segment, which was on it. -/
theorem sharedPage_lost :
    ∃ s', programHeaderLoop bootImage sharedPageFile (fun _ _ => 0) sharedPageHeader
        (pagingInit bootImage fun _ => 0) = some s' ∧
      ¬∀ ph ∈ segments sharedPageFile (fun _ _ => 0) sharedPageHeader,
        SegmentLoaded bootImage s' sharedPageContent ph := by
  obtain ⟨s', hrun, hiff⟩ := loop_loaded_iff (pagingInit_sound bootImage fun _ => 0) (by decide)
    sharedPage_serves (by norm_num) sharedPageHeader (fun _ _ => 0)
    sharedPage_disjoint sharedPage_loadable sharedPage_supplied sharedPage_direct
  refine ⟨s', hrun, fun hall => ?_⟩
  have hkept := hiff.mp hall
  rw [sharedPage_segments, List.pairwise_pair] at hkept
  have hpage : 0x8048000 + 0 ∈ segmentPages ⟨1, 122, 0x8048800, 0, 4, 4, 6, 0x1000⟩ := by
    refine ⟨?_, ?_, ?_⟩ <;> decide
  exact absurd (hkept 0 (by decide) hpage) (by decide)

end SharedPage

end ElfImage
