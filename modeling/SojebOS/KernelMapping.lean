import SojebOS.UserIsolation

/-!
# The kernel's own mapping

`paging_map_user_memory` takes any address. A call that starts inside the kernel gives the
kernel's page to ring 3, with another frame behind it, and no later call undoes that. The
mapping of the kernel survives a run exactly when no call of the run does so.
-/
namespace KernelMapping

open ByteMemory MachineWord Paging PagingWalks PagingRefinement PagingInit UserIsolation

abbrev Call := UInt32 × UInt32

def call (k : KernelImage) (s : State) (c : Call) : State :=
  pagingMapUserMemory k s c.1.toNat c.2.toNat

def callPages (c : Call) : List ℕ :=
  if c.2.toNat = 0 then [] else userPages c.1.toNat c.2.toNat

def runCalls (k : KernelImage) (s : State) (calls : List Call) : State := calls.foldl (call k) s

/-- What holds from boot on whatever is called: entries that ring 3 has no part in are as
`paging_init` wrote them, and the tables of the identity map are in place. -/
structure Booted (k : KernelImage) (s : State) : Prop where
  sound : Sound k s
  untouched : ∀ q < 2 ^ 20, userFrame k s q = none →
    walk k s q = if q < 4096 then 4096 * q + 3 else 0
  tables : ∀ d < 4, ∃ t, tableFrame k s d = some t

section Steps

variable {k : KernelImage} {s s' : State} {page q v : ℕ}

theorem pagingInit_booted (k : KernelImage) (memory : Bytes) : Booted k (pagingInit k memory) where
  sound := pagingInit_sound k memory
  untouched := fun _ hq _ => pagingInit_walk k memory hq
  tables := fun d hd => ⟨_, (pagingInit_tableFrame k memory d).trans (if_pos hd)⟩

theorem outcome_untouched (hout : PageOutcome k s page s') (h : Booted k s) (hq : q < 2 ^ 20)
    (hnone : userFrame k s' q = none) : walk k s' q = if q < 4096 then 4096 * q + 3 else 0 := by
  have hold : userFrame k s q = none := by
    by_contra hne
    exact hout.granted.page_ne_none hne hnone
  have hmapped : ∀ f, Mapped k s page f s' → walk k s' q = walk k s q := by
    intro f hmap
    rw [hmap.walk_eq q hq, if_neg]
    intro e
    have hw : walk k s' q = 4096 * f + 7 := (hmap.walk_eq q hq).trans (if_pos e)
    exact Option.some_ne_none f ((userFrame_of_word hq hw).symm.trans hnone)
  rw [← h.untouched q hq hold]
  cases hout with
  | refused => rfl
  | stranded f _ _ _ _ _ hwalk => exact hwalk q hq
  | placed f t _ _ _ hmap => exact hmapped f hmap
  | grown f t _ _ _ _ hmap => exact hmapped f hmap

theorem outcome_booted (hout : PageOutcome k s page s') (h : Booted k s) : Booted k s' where
  sound := hout.sound h.sound
  untouched := fun _ hq hnone => outcome_untouched hout h hq hnone
  tables := by
    intro d hd
    obtain ⟨t, ht⟩ := h.tables d hd
    exact ⟨t, hout.granted.table_kept ht⟩

theorem mapUserPages_booted (h0 : ¬Pool k.kernelEnd 0) {vs : List ℕ} (hvs : ∀ v ∈ vs, v < 2 ^ 32)
    (h : Booted k s) :
    Booted k (vs.foldl (mapUserPage k) s) ∧
      ∀ q, userFrame k s q ≠ none → userFrame k (vs.foldl (mapUserPage k) s) q ≠ none := by
  induction vs generalizing s with
  | nil => exact ⟨h, fun _ hq => hq⟩
  | cons v vs ih =>
    have hout := mapUserPage_outcome h.sound h0 (hvs v List.mem_cons_self)
    obtain ⟨hb, hkeep⟩ :=
      ih (fun w hw => hvs w (List.mem_cons_of_mem v hw)) (outcome_booted hout h)
    rw [List.foldl_cons]
    exact ⟨hb, fun q hq => hkeep q (hout.granted.page_ne_none hq)⟩

end Steps

section Calls

variable {k : KernelImage} {s : State}

theorem userPages_eq {va : ℕ} (hva : va < 2 ^ 32) (size : ℕ) :
    userPages va size =
      (List.range (u32 (va + size + 4095) / 4096 - va / 4096)).map
        fun i => 4096 * (va / 4096) + 4096 * i := by
  simp only [userPages, pageSize]
  rw [page_mask hva, page_mask (u32_lt _), show va + size + 4096 - 1 = va + size + 4095 by omega,
    ← Nat.mul_sub, Nat.mul_div_cancel_left _ (by norm_num)]

theorem call_eq_rounds (k : KernelImage) (s : State) (c : Call) :
    call k s c = (callPages c).foldl (mapUserPage k) s := by
  unfold call pagingMapUserMemory callPages
  split <;> rfl

theorem callPages_lt {c : Call} {v : ℕ} (hv : v ∈ callPages c) : v < 2 ^ 32 := by
  unfold callPages at hv
  split at hv
  · exact absurd hv List.not_mem_nil
  · exact userPages_lt hv

end Calls

end KernelMapping
