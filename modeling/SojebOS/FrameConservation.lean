import SojebOS.DirectRounds
import SojebOS.FrameAllocator

/-!
# Frames that nothing points at any more

A round of `paging_map_user_memory` loses a frame in two ways: it overwrites the only entry
that pointed at one, or it takes the last free frame for a page and finds none for the
page's table. A lost frame stays lost, since nothing gives it back.
-/
namespace FrameConservation

open ByteMemory Paging PagingWalks PagingRefinement PagingInit UserIsolation KernelMapping
open FrameAllocator FrameSupply DirectAccess DirectRounds

def Referenced (k : KernelImage) (s : State) (f : ℕ) : Prop :=
  (∃ d, tableFrame k s d = some f) ∨
    ∃ q < 2 ^ 20, walk k s q &&& pagePresent ≠ 0 ∧ walk k s q / 4096 = f

/-- Every frame that is marked in the bitmap, above the kernel's, is pointed at. -/
def NoFrameLost (k : KernelImage) (s : State) : Prop :=
  ∀ f, Pool k.kernelEnd f → bitmapTest s f = true → Referenced k s f

/-- The entry of the page is the only one that points at its frame. -/
def RefersAlone (k : KernelImage) (s : State) (page : ℕ) : Prop :=
  walk k s page &&& pagePresent ≠ 0 ∧ (∀ d, tableFrame k s d ≠ some (walk k s page / 4096)) ∧
    ∀ q < 2 ^ 20, walk k s q &&& pagePresent ≠ 0 → walk k s q / 4096 = walk k s page / 4096 →
      q = page

def Taken (k : KernelImage) (s : State) (f : ℕ) : Prop :=
  Pool k.kernelEnd f ∧ bitmapTest s f = true

/-- The round finds no free frame; or it finds a table, and the entry it overwrites is not
the only one of a taken frame; or it finds no table, and has a second frame for one, or the
last free frame is pointed at already. -/
def Conserves (k : KernelImage) (s : State) (v : ℕ) : Prop :=
  (∀ f < totalFrames, bitmapTest s f = true) ∨
  (tableFrame k s (v / 4096 / 1024) ≠ none ∧
    ¬(Taken k s (walk k s (v / 4096) / 4096) ∧ RefersAlone k s (v / 4096))) ∨
  tableFrame k s (v / 4096 / 1024) = none ∧
    ∀ f < totalFrames, bitmapTest s f = false →
      (∃ g < totalFrames, g ≠ f ∧ bitmapTest s g = false) ∨ Referenced k s f

def ConservesRounds (k : KernelImage) : State → List ℕ → Prop
  | _, [] => True
  | s, v :: vs => Conserves k s v ∧ ConservesRounds k (mapUserPage k s v) vs

def ConservesRun (k : KernelImage) : State → List Call → Prop
  | _, [] => True
  | s, c :: calls => ConservesRounds k s (callPages c) ∧ ConservesRun k (call k s c) calls

section Rounds

variable {k : KernelImage} {s s' : State} {page f t v : ℕ} {vs : List ℕ}

theorem noFrameLost_iff : NoFrameLost k s ↔
    ∀ f, Pool k.kernelEnd f → f ∈ (space k s).held → Referenced k s f := by
  constructor
  · intro h f hpool hheld
    exact h f hpool (hheld hpool.2)
  · intro h f hpool hused
    exact h f hpool fun _ => hused

/-- What a round with a frame leaves pointed at: its frame, its table, and what was pointed
at from elsewhere than the page's entry. -/
theorem referenced_mapped (hpage : page < 2 ^ 20) (hmap : Mapped k s page f s') (g : ℕ) :
    Referenced k s' g ↔ g = f ∨ (∃ d, tableFrame k s' d = some g) ∨
      ∃ q < 2 ^ 20, q ≠ page ∧ walk k s q &&& pagePresent ≠ 0 ∧ walk k s q / 4096 = g := by
  have hself : walk k s' page = 4096 * f + 7 := (hmap.walk_eq page hpage).trans (if_pos rfl)
  constructor
  · intro h
    rcases h with htable | ⟨q, hq, hp, he⟩
    · exact Or.inr (Or.inl htable)
    · by_cases hqp : q = page
      · rw [hqp, hself] at he
        exact Or.inl (by omega)
      · rw [hmap.walk_eq q hq, if_neg hqp] at hp he
        exact Or.inr (Or.inr ⟨q, hq, hqp, hp, he⟩)
  · intro h
    rcases h with rfl | htable | ⟨q, hq, hqp, hp, he⟩
    · refine Or.inr ⟨page, hpage, ?_, ?_⟩
      · rw [hself, present_iff]
        omega
      · rw [hself]
        omega
    · exact Or.inl htable
    · refine Or.inr ⟨q, hq, ?_, ?_⟩
      · rw [hmap.walk_eq q hq, if_neg hqp]
        exact hp
      · rw [hmap.walk_eq q hq, if_neg hqp]
        exact he

/-- Overwriting an entry loses its frame exactly when no other points at it. -/
theorem placed_iff (hpage : page < 2 ^ 20) (hmap : Mapped k s page f s')
    (hspace : space k s' = ((space k s).hold f).point page f) :
    NoFrameLost k s' ↔ NoFrameLost k s ∧
      ¬(Taken k s (walk k s page / 4096) ∧ RefersAlone k s page) := by
  have htables : tableFrame k s' = tableFrame k s := congrArg AddressSpace.Space.table hspace
  have hheld : (space k s').held = insert f (space k s).held :=
    congrArg AddressSpace.Space.held hspace
  rw [noFrameLost_iff, noFrameLost_iff]
  simp only [referenced_mapped hpage hmap, htables, hheld]
  constructor
  · intro hall
    refine ⟨fun g hpool hg => ?_, fun hbad => ?_⟩
    · rcases hall g hpool (Set.mem_insert_of_mem f hg) with rfl | htable | ⟨q, hq, -, hp, he⟩
      · exact absurd hg hmap.free
      · exact Or.inl htable
      · exact Or.inr ⟨q, hq, hp, he⟩
    · obtain ⟨⟨hpool, hused⟩, -, htable, hpages⟩ := hbad
      have hg : walk k s page / 4096 ∈ (space k s).held := fun _ => hused
      rcases hall _ hpool (Set.mem_insert_of_mem f hg) with e | ⟨d, hd⟩ | ⟨q, hq, hqp, hp, he⟩
      · exact hmap.free (e ▸ hg)
      · exact htable d hd
      · exact hqp (hpages q hq hp he)
  · intro hboth g hpool hg
    obtain ⟨hall, halone⟩ := hboth
    rcases Set.mem_insert_iff.mp hg with rfl | hg
    · exact Or.inl rfl
    · rcases hall g hpool hg with htable | ⟨q, hq, hp, he⟩
      · exact Or.inr (Or.inl htable)
      · by_cases hqp : q = page
        · -- the overwritten entry pointed at it, so another one does too
          subst hqp
          by_contra hnone
          rw [not_or, not_or] at hnone
          apply halone
          rw [he]
          refine ⟨⟨hpool, hg hpool.2⟩, hp, fun d hd => hnone.2.1 ⟨d, he ▸ hd⟩, ?_⟩
          intro q' hq' hp' he'
          by_contra hne
          exact hnone.2.2 ⟨q', hq', hne, hp', he'.trans he⟩
        · exact Or.inr (Or.inr ⟨q, hq, hqp, hp, he⟩)

theorem grown_iff (hpage : page < 2 ^ 20) (hs : tableFrame k s (page / 1024) = none)
    (ht : t ∉ ((space k s).hold f).held) (hmap : Mapped k s page f s')
    (hspace : space k s' =
      (((space k s).hold f).hold t |>.attach (page / 1024) t).point page f) :
    NoFrameLost k s' ↔ NoFrameLost k s := by
  have htables : tableFrame k s' = Function.update (tableFrame k s) (page / 1024) (some t) :=
    congrArg AddressSpace.Space.table hspace
  have hheld : (space k s').held = insert t (insert f (space k s).held) :=
    congrArg AddressSpace.Space.held hspace
  have hempty : ¬walk k s page &&& pagePresent ≠ 0 := by
    rw [walk_of_none hpage hs]
    decide
  rw [noFrameLost_iff, noFrameLost_iff]
  simp only [referenced_mapped hpage hmap, hheld]
  constructor
  · intro hall g hpool hg
    rcases hall g hpool (Set.mem_insert_of_mem t (Set.mem_insert_of_mem f hg)) with
      rfl | ⟨d, hd⟩ | ⟨q, hq, -, hp, he⟩
    · exact absurd hg hmap.free
    · rw [htables] at hd
      rcases AddressSpace.update_some hd with ⟨-, rfl⟩ | hold
      · exact absurd (Set.mem_insert_of_mem f hg) ht
      · exact Or.inl ⟨d, hold⟩
    · exact Or.inr ⟨q, hq, hp, he⟩
  · intro hall g hpool hg
    have hslot : tableFrame k s' (page / 1024) = some t := by
      rw [htables, Function.update_self]
    rcases Set.mem_insert_iff.mp hg with rfl | hg
    · exact Or.inr (Or.inl ⟨_, hslot⟩)
    · rcases Set.mem_insert_iff.mp hg with rfl | hg
      · exact Or.inl rfl
      · rcases hall g hpool hg with ⟨d, hd⟩ | ⟨q, hq, hp, he⟩
        · refine Or.inr (Or.inl ⟨d, ?_⟩)
          rw [htables, Function.update_of_ne, hd]
          intro e
          rw [e, hs] at hd
          cases hd
        · have hqp : q ≠ page := fun e => hempty (e ▸ hp)
          exact Or.inr (Or.inr ⟨q, hq, hqp, hp, he⟩)

/-- A frame taken for a page without a table is lost unless something points at it. -/
theorem stranded_iff (h : Sound k s) (hf : f ∉ (space k s).held)
    (hspace : space k s' = (space k s).hold f) (hwalk : ∀ q < 2 ^ 20, walk k s' q = walk k s q) :
    NoFrameLost k s' ↔ NoFrameLost k s ∧ Referenced k s f := by
  have htables : tableFrame k s' = tableFrame k s := congrArg AddressSpace.Space.table hspace
  have hheld : (space k s').held = insert f (space k s).held :=
    congrArg AddressSpace.Space.held hspace
  have href : ∀ g, Referenced k s' g ↔ Referenced k s g := by
    intro g
    unfold Referenced
    rw [htables]
    refine or_congr_right (exists_congr fun q => and_congr_right fun hq => ?_)
    rw [hwalk q hq]
  rw [noFrameLost_iff, noFrameLost_iff]
  simp only [href, hheld]
  constructor
  · intro hall
    exact ⟨fun g hpool hg => hall g hpool (Set.mem_insert_of_mem f hg),
      hall f (Sound.pool h hf) (Set.mem_insert f _)⟩
  · intro hboth g hpool hg
    rcases Set.mem_insert_iff.mp hg with rfl | hg
    · exact hboth.2
    · exact hboth.1 g hpool hg

theorem held_of_used (h : ∀ f < totalFrames, bitmapTest s f = true) : f ∈ (space k s).held :=
  fun hlt => h f hlt

/-- A round that takes the last free frame and finds no table conserves only if something
points at the frame already. -/
theorem stranded_conserves (hf : f ∉ (space k s).held)
    (hs : tableFrame k s (v / 4096 / 1024) = none)
    (hfull : ∀ g, g ∈ ((space k s).hold f).held) : Conserves k s v ↔ Referenced k s f := by
  constructor
  · intro hcons
    rcases hcons with hall | ⟨hsome, -⟩ | ⟨-, hlast⟩
    · exact absurd (held_of_used hall) hf
    · exact absurd hs hsome
    · obtain ⟨hlt, hfree⟩ := not_mem_held.mp hf
      rcases hlast f hlt hfree with ⟨g, hg, hne, hgfree⟩ | href
      · rcases Set.mem_insert_iff.mp (hfull g) with e | hheld
        · exact absurd e hne
        · exact absurd hheld (not_mem_held.mpr ⟨hg, hgfree⟩)
      · exact href
  · intro href
    refine Or.inr (Or.inr ⟨hs, fun g hg hfree => Or.inr ?_⟩)
    rcases Set.mem_insert_iff.mp (hfull g) with rfl | hheld
    · exact href
    · exact absurd hheld (not_mem_held.mpr ⟨hg, hfree⟩)

theorem grown_conserves (hf : f ∉ (space k s).held)
    (hs : tableFrame k s (v / 4096 / 1024) = none) (ht : t ∉ ((space k s).hold f).held) :
    Conserves k s v := by
  refine Or.inr (Or.inr ⟨hs, fun g _ _ => Or.inl ?_⟩)
  have htf : t ≠ f := by
    intro e
    rw [e] at ht
    exact ht (Set.mem_insert f _)
  have hth : t ∉ (space k s).held := fun e => ht (Set.mem_insert_of_mem f e)
  by_cases hgf : g = f
  · exact ⟨t, (not_mem_held.mp hth).1, hgf ▸ htf, (not_mem_held.mp hth).2⟩
  · exact ⟨f, (not_mem_held.mp hf).1, Ne.symm hgf, (not_mem_held.mp hf).2⟩

theorem round_iff (h : Sound k s) (h0 : ¬Pool k.kernelEnd 0) (hv : v < 2 ^ 32) :
    NoFrameLost k (mapUserPage k s v) ↔ NoFrameLost k s ∧ Conserves k s v := by
  have hpage : v / 4096 < 2 ^ 20 := by omega
  have hout := mapUserPage_outcome h h0 hv
  generalize mapUserPage k s v = s' at hout
  cases hout with
  | refused hfull =>
    have hcons : Conserves k s v := Or.inl fun f hf => hfull f hf
    exact (and_iff_left hcons).symm
  | stranded f _ hf hs hfull hspace hwalk =>
    rw [stranded_iff h hf hspace hwalk, stranded_conserves hf hs hfull]
  | placed f t _ hs hspace hmap =>
    rw [placed_iff hpage hmap hspace]
    apply and_congr_right
    intro _
    constructor
    · intro halone
      exact Or.inr (Or.inl ⟨by rw [hs]; exact Option.some_ne_none t, halone⟩)
    · intro hcons
      rcases hcons with hall | ⟨-, halone⟩ | ⟨hnone, -⟩
      · exact absurd (held_of_used hall) hmap.free
      · exact halone
      · rw [hs] at hnone
        cases hnone
  | grown f t _ hs ht hspace hmap =>
    rw [grown_iff hpage hs ht hmap hspace]
    exact (and_iff_left (grown_conserves hmap.free hs ht)).symm

theorem rounds_iff (h : Sound k s) (h0 : ¬Pool k.kernelEnd 0) (hvs : ∀ v ∈ vs, v < 2 ^ 32) :
    NoFrameLost k (vs.foldl (mapUserPage k) s) ↔ NoFrameLost k s ∧ ConservesRounds k s vs := by
  induction vs generalizing s with
  | nil => exact (and_iff_left trivial).symm
  | cons v vs ih =>
    have hv := hvs v List.mem_cons_self
    have hsound := (mapUserPage_outcome h h0 hv).sound h
    rw [List.foldl_cons]
    calc NoFrameLost k (vs.foldl (mapUserPage k) (mapUserPage k s v))
        ↔ NoFrameLost k (mapUserPage k s v) ∧ ConservesRounds k (mapUserPage k s v) vs :=
          ih hsound fun w hw => hvs w (List.mem_cons_of_mem v hw)
      _ ↔ (NoFrameLost k s ∧ Conserves k s v) ∧ ConservesRounds k (mapUserPage k s v) vs := by
          rw [round_iff h h0 hv]
      _ ↔ NoFrameLost k s ∧ ConservesRounds k s (v :: vs) := and_assoc

theorem run_iff (h : Sound k s) (h0 : ¬Pool k.kernelEnd 0) (calls : List Call) :
    NoFrameLost k (runCalls k s calls) ↔ NoFrameLost k s ∧ ConservesRun k s calls := by
  induction calls generalizing s with
  | nil => exact (and_iff_left trivial).symm
  | cons c calls ih =>
    have hsound : Sound k (call k s c) := (pagingMapUserMemory_sound h0 h _ _).1
    calc NoFrameLost k (runCalls k s (c :: calls))
        ↔ NoFrameLost k (call k s c) ∧ ConservesRun k (call k s c) calls := ih hsound
      _ ↔ (NoFrameLost k s ∧ ConservesRounds k s (callPages c)) ∧
            ConservesRun k (call k s c) calls := by
          rw [call_eq_rounds, rounds_iff h h0 fun v hv => callPages_lt hv]
      _ ↔ NoFrameLost k s ∧ ConservesRun k s (c :: calls) := and_assoc

theorem pagingInit_noFrameLost (k : KernelImage) (memory : Bytes) :
    NoFrameLost k (pagingInit k memory) := by
  rw [noFrameLost_iff]
  intro f hpool hheld
  exact absurd hpool ((pagingInit_held k memory f).mp hheld)

end Rounds

/-- After any calls from boot on whose rounds are direct, no frame is lost exactly when every
round conserved. -/
theorem no_frame_lost_iff (k : KernelImage) (h0 : 0 < k.kernelEnd)
    (h64 : k.kernelEnd ≤ maxPhysicalMemory) (memory : Bytes) (calls : List Call)
    (hdirect : RoundsDirect k (pagingInit k memory) (calls.flatMap callPages)) :
    ∃ s, runTranslated k (pagingInit k memory) calls = some s ∧
      (NoFrameLost k s ↔ ConservesRun k (pagingInit k memory) calls) := by
  have hsound := pagingInit_sound k memory
  have hzero := zero_not_pool h0 h64
  refine ⟨_, runTranslated_direct hsound hzero hdirect, ?_⟩
  rw [run_iff hsound hzero]
  exact and_iff_right (pagingInit_noFrameLost k memory)

/-- A byte at 6 MB, just above the kernel, mapped and mapped again. -/
def repeatedCall : Call := (0x600000, 1)

theorem boot_free (memory : Bytes) :
    0x600 ∉ (space bootImage (pagingInit bootImage memory)).held := by
  rw [pagingInit_held]
  decide

theorem boot_allocFrame (memory : Bytes) : allocFrame (pagingInit bootImage memory) =
    (4096 * 0x600, bitmapSet (pagingInit bootImage memory) 0x600) := by
  have hreserved : reservedEndPage bootImage.kernelEnd = 0x600 := by decide
  apply allocFrame_filled
  · intro f
    rw [pagingInit_used, hreserved]
  · norm_num

theorem repeatedCall_round (s : State) :
    call bootImage s repeatedCall = mapUserPage bootImage s 0x600000 := by
  have hpages : callPages repeatedCall = [0x600000] := by decide
  rw [call_eq_rounds, hpages, List.foldl_cons, List.foldl_nil]

theorem repeatedCall_first (memory : Bytes) {q : ℕ} (hq : q < 2 ^ 20) :
    walk bootImage (mapUserPage bootImage (pagingInit bootImage memory) 0x600000) q =
      if q = 0x600 then 4096 * 0x600 + 7 else if q < 4096 then 4096 * q + 3 else 0 := by
  have hsound := pagingInit_sound bootImage memory
  have htable := pagingInit_tableFrame bootImage memory 1
  obtain ⟨hspace, hwalk⟩ := takeFrame_space hsound (boot_free memory)
  have htable' : tableFrame bootImage (takeFrame (pagingInit bootImage memory) 0x600)
      (0x600 / 1024) = some (bootImage.tablesFrame + 1) :=
    (congrFun (congrArg AddressSpace.Space.table hspace) 1).trans htable
  have hentry := setTableEntry_walk (hsound.hold hspace).tablesApart htable' (by norm_num)
    (show 4096 * 0x600 + 7 < 2 ^ 32 by norm_num)
  rw [mapUserPage_present hsound (by decide) (boot_free memory) (boot_allocFrame memory) htable]
  refine (hentry.2 q hq).trans ?_
  rw [hwalk q hq, pagingInit_walk bootImage memory hq]

theorem repeatedCall_bitmap (memory : Bytes) (g : ℕ) :
    bitmapTest (mapUserPage bootImage (pagingInit bootImage memory) 0x600000) g =
      decide (g < 0x601) := by
  have hround := mapUserPage_present (v := 0x600000) (pagingInit_sound bootImage memory) (by decide)
    (boot_free memory) (boot_allocFrame memory) (pagingInit_tableFrame bootImage memory 1)
  have hreserved : reservedEndPage bootImage.kernelEnd = 0x600 := by decide
  rw [hround, placed_bitmapTest, pagingInit_used, hreserved, ← Bool.decide_or]
  exact decide_eq_decide.mpr (by omega)

/-- The identity map is as good as whole after the first call, whose page got its own frame. -/
theorem repeatedCall_direct (memory : Bytes) :
    RoundsDirect bootImage (pagingInit bootImage memory)
      ([repeatedCall, repeatedCall].flatMap callPages) := by
  have h0 : ¬Pool bootImage.kernelEnd 0 := by decide
  have hlow : KernelLow bootImage := ⟨by decide, by decide⟩
  have hpages : [repeatedCall, repeatedCall].flatMap callPages = [0x600000, 0x600000] := by decide
  have htable := pagingInit_tableFrame bootImage memory 1
  obtain ⟨htouched, hfilled, htables⟩ := round_present (v := 0x600000)
    (pagingInit_filled bootImage memory) h0 (by decide) (by norm_num) htable
  have htable' := (congrFun htables 1).trans htable
  have htouched' := (round_present (v := 0x600000) hfilled h0 (by decide) (by norm_num) htable').1
  generalize hs : mapUserPage bootImage (pagingInit bootImage memory) 0x600000 = s at *
  have hid : IdentityWhole bootImage s := by
    intro q hq
    have hwalk := repeatedCall_first memory (show q < 2 ^ 20 by omega)
    rw [hs] at hwalk
    rw [SelfMapped, hwalk, present_iff]
    norm_num
    split <;> omega
  have hout := mapUserPage_outcome hfilled.sound h0 (show 0x600000 < 2 ^ 32 by norm_num)
  rw [hpages, RoundsDirect, RoundsDirect, hs]
  refine ⟨(pagingInit_identityWhole _ _).direct hlow ?_, hid.direct hlow ?_, ?_, ?_⟩
  · rw [htouched]
    decide
  · rw [htouched']
    decide
  · intro q hq
    have hq' : q < 0x600 := hq
    exact (hid q (by omega)).congr (outcome_walk_other hout (by omega) (by omega))
  · exact (hid _ (by decide)).congr (outcome_walk_other hout (by decide) (by decide))

/-- The second call overwrites the entry of frame 0x600, which is still marked. -/
theorem repeatedCall_loses : ∃ s, runTranslated bootImage (pagingInit bootImage fun _ => 0)
    [repeatedCall, repeatedCall] = some s ∧ ¬NoFrameLost bootImage s := by
  refine ⟨_, runTranslated_direct (pagingInit_sound bootImage _) (by decide)
    (repeatedCall_direct fun _ => 0), ?_⟩
  have hsound := pagingInit_sound bootImage fun _ => 0
  have h0 : ¬Pool bootImage.kernelEnd 0 := by decide
  rw [run_iff hsound h0, ConservesRun, ConservesRun, repeatedCall_round]
  generalize hs : mapUserPage bootImage (pagingInit bootImage fun _ => 0) 0x600000 = s
  have hwalk : ∀ q < 2 ^ 20, walk bootImage s q =
      if q = 0x600 then 4096 * 0x600 + 7 else if q < 4096 then 4096 * q + 3 else 0 :=
    fun q hq => hs ▸ repeatedCall_first _ hq
  have hbits : ∀ g, bitmapTest s g = decide (g < 0x601) := fun g => hs ▸ repeatedCall_bitmap _ g
  have hsound' : Sound bootImage s :=
    hs ▸ (mapUserPage_outcome hsound h0 (by norm_num)).sound hsound
  have hpage := hwalk 0x600 (by norm_num)
  rw [if_pos rfl] at hpage
  have huser : userFrame bootImage s 0x600 = some 0x600 := by
    rw [userFrame, hpage]
    decide
  have hpages : callPages repeatedCall = [0x600000] := by decide
  rw [hpages]
  intro hrun
  have hcons : Conserves bootImage s 0x600000 := hrun.2.2.1.1
  rcases hcons with hall | ⟨-, halone⟩ | ⟨hnone, -⟩
  · have hfree := hall 0x601 (by decide)
    rw [hbits] at hfree
    exact absurd hfree (by decide)
  · apply halone
    have hframe : walk bootImage s (0x600000 / 4096) = 4096 * 0x600 + 7 := hpage
    rw [RefersAlone, hframe]
    refine ⟨⟨by decide, by rw [hbits]; decide⟩, by decide, ?_, ?_⟩
    · exact fun d => hsound'.isolated.page_not_table 0x600 d 0x600 huser
    · intro q hq hp he
      rw [hwalk q hq] at hp he
      by_contra hne
      have hqne : q ≠ 0x600 := hne
      rw [if_neg hqne] at hp he
      split at he
      · omega
      · omega
  · have htable : walk bootImage s (0x600000 / 4096) = 0 := walk_of_none (by norm_num) hnone
    have hframe : walk bootImage s (0x600000 / 4096) = 4096 * 0x600 + 7 := hpage
    omega

theorem no_frame_lost_iff_boot :
    ∃ s, runTranslated bootImage (pagingInit bootImage fun _ => 0) [repeatedCall, repeatedCall] =
        some s ∧
      (NoFrameLost bootImage s ↔ ConservesRun bootImage (pagingInit bootImage fun _ => 0)
        [repeatedCall, repeatedCall]) :=
  no_frame_lost_iff bootImage (by decide) (by decide) _ _ (repeatedCall_direct _)

end FrameConservation
