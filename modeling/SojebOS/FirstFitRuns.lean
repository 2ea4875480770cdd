import SojebOS.FirstFitUsed

/-!
# First fit on the free runs of an arena

The free blocks of an arena are its maximal runs of addresses outside used blocks, since no
two of them are adjacent. So first fit serves the lowest run that is long enough, and fails
when there is none.
-/
namespace FirstFitRuns

open FirstFit FirstFitUsed

/-- A maximal run of addresses from `a` to `e` in an interval, none of which is taken. -/
structure MaximalRun (taken : ℕ → Prop) (lo hi a e : ℕ) : Prop where
  above : lo ≤ a
  below : e ≤ hi
  nonempty : a < e
  outside : ∀ x, a ≤ x → x < e → ¬ taken x
  starts : a = lo ∨ taken (a - 1)
  ends : e = hi ∨ taken e

/-- The address lies in the header or the payload of a used block. -/
def Covered (h : ℕ) (bs : List Block) (x : ℕ) : Prop :=
  ∃ c ∈ bs, c.free = false ∧ c.addr ≤ x ∧ x < c.addr + h + c.size

section Runs

variable {taken taken' : ℕ → Prop} {lo hi a e a' e' x : ℕ}

theorem MaximalRun.congr (hrun : MaximalRun taken lo hi a e) (h : ∀ x, taken x ↔ taken' x) :
    MaximalRun taken' lo hi a e := by
  obtain ⟨h1, h2, h3, h4, h5, h6⟩ := hrun
  exact ⟨h1, h2, h3, fun x hx hx' ht => h4 x hx hx' ((h x).mpr ht),
    h5.imp_right (h _).mp, h6.imp_right (h _).mp⟩

theorem MaximalRun.unique (hrun : MaximalRun taken lo hi a e)
    (hrun' : MaximalRun taken lo hi a' e') (hx : a ≤ x ∧ x < e) (hx' : a' ≤ x ∧ x < e') :
    a = a' ∧ e = e' := by
  have hstart : ∀ {a e a' e'}, MaximalRun taken lo hi a e → MaximalRun taken lo hi a' e' →
      a ≤ x ∧ x < e → a' ≤ x ∧ x < e' → a ≤ a' := by
    intro a e a' e' h h' hx hx'
    by_contra hlt
    rcases h.starts with hlo | htaken
    · have := h'.above
      omega
    · exact h'.outside (a - 1) (by omega) (by omega) htaken
  have hend : ∀ {a e a' e'}, MaximalRun taken lo hi a e → MaximalRun taken lo hi a' e' →
      a ≤ x ∧ x < e → a' ≤ x ∧ x < e' → e' ≤ e := by
    intro a e a' e' h h' hx hx'
    by_contra hlt
    rcases h.ends with hhi | htaken
    · have := h'.below
      omega
    · exact h'.outside e (by omega) (by omega) htaken
  exact ⟨le_antisymm (hstart hrun hrun' hx hx') (hstart hrun' hrun hx' hx),
    le_antisymm (hend hrun' hrun hx' hx) (hend hrun hrun' hx hx')⟩

end Runs

section Blocks

variable {h r n lo hi a e x : ℕ} {bs cs : List Block} {b c : Block}

theorem exists_block (ht : Tiles h lo bs hi) (hx : lo ≤ x) (hx' : x < hi) :
    ∃ b ∈ bs, b.addr ≤ x ∧ x < b.addr + h + b.size := by
  induction bs generalizing lo with
  | nil =>
    have : lo = hi := ht
    omega
  | cons b bs ih =>
    obtain ⟨rfl, ht⟩ := ht
    rcases Nat.lt_or_ge x (b.addr + h + b.size) with hlt | hge
    · exact ⟨b, List.mem_cons_self, hx, hlt⟩
    · obtain ⟨c, hc, hcx⟩ := ih ht hge
      exact ⟨c, List.mem_cons_of_mem b hc, hcx⟩

theorem same_block (ht : Tiles h lo bs hi) (hb : b ∈ bs) (hc : c ∈ bs)
    (hbx : b.addr ≤ x ∧ x < b.addr + h + b.size) (hcx : c.addr ≤ x ∧ x < c.addr + h + c.size) :
    b = c := by
  by_contra hne
  have := ht.apart hb hc hne
  omega

theorem free_block_run (hbs : Arena h lo hi bs) (hh : 0 < h) (hb : b ∈ bs)
    (hf : b.free = true) :
    MaximalRun (Covered h bs) lo hi b.addr (b.addr + h + b.size) := by
  obtain ⟨pre, post, rfl⟩ := List.append_of_mem hb
  have ht := hbs.tiles
  have hbd := ht.mem_bounds hb
  have hsep := List.isChain_append.mp hbs.separated
  obtain ⟨m, hpre, rfl, hpost⟩ := tiles_append.mp ht
  refine ⟨hbd.1, hbd.2, by omega, fun x h1 h2 => ?_, ?_, ?_⟩
  · rintro ⟨c, hc, hcf, hcx⟩
    obtain rfl := same_block ht hb hc ⟨h1, h2⟩ hcx
    rw [hf] at hcf
    cases hcf
  · rcases List.eq_nil_or_concat pre with rfl | ⟨pre, q, rfl⟩
    · exact .inl (Eq.symm hpre)
    · rw [List.concat_eq_append] at hpre hsep
      obtain ⟨p, -, rfl, hend⟩ := tiles_append.mp hpre
      have hend : q.addr + h + q.size = b.addr := hend
      have hqf : q.free = false := by
        have := hsep.2.2 q (by simp) b (by simp)
        simpa [hf] using this
      exact .inr ⟨q, by simp, hqf, by omega, by omega⟩
  · cases post with
    | nil => exact .inl hpost
    | cons c post =>
      have hcf : c.free = false := by
        have := (List.isChain_cons_cons.mp hsep.2.1).1
        simpa [hf] using this
      have hca := hpost.1
      exact .inr ⟨c, by simp, hcf, by omega, by omega⟩

/-- The maximal runs outside used blocks are the extents of the free blocks. -/
theorem maximalRun_iff (hbs : Arena h lo hi bs) (hh : 0 < h) :
    MaximalRun (Covered h bs) lo hi a e ↔
      ∃ b ∈ bs, b.free = true ∧ b.addr = a ∧ b.addr + h + b.size = e := by
  constructor
  · intro hrun
    have hae := hrun.nonempty
    have hbelow := hrun.below
    obtain ⟨b, hb, hbx⟩ := exists_block hbs.tiles hrun.above (by omega : a < hi)
    have hf : b.free = true := by
      cases hbf : b.free with
      | true => rfl
      | false => exact absurd ⟨b, hb, hbf, hbx⟩ (hrun.outside a le_rfl hae)
    obtain ⟨h1, h2⟩ := (free_block_run hbs hh hb hf).unique hrun hbx ⟨le_rfl, hae⟩
    exact ⟨b, hb, hf, h1, h2⟩
  · rintro ⟨b, hb, hf, rfl, rfl⟩
    exact free_block_run hbs hh hb hf

theorem allocate_none_iff (hbs : Arena h lo hi bs) (hh : 0 < h) :
    allocate h r n bs = none ↔
      ∀ a e, MaximalRun (Covered h bs) lo hi a e → e - a < h + n := by
  constructor
  · intro hnone a e hrun
    obtain ⟨b, hb, hf, rfl, rfl⟩ := (maximalRun_iff hbs hh).mp hrun
    have hsmall : ¬ n ≤ b.size := fun hle => allocate_none hnone b hb ⟨hf, hle⟩
    omega
  · intro hruns
    cases ha : allocate h r n bs with
    | none => rfl
    | some served =>
      obtain ⟨cs, d⟩ := served
      obtain ⟨pre, b, post, rfl, hf, hn, rfl, -, -⟩ := allocate_split ha
      have := hruns _ _ (free_block_run hbs hh (b := b) (by simp) hf)
      omega

theorem allocate_lowest (hbs : Arena h lo hi bs) (hh : 0 < h)
    (hrun : MaximalRun (Covered h bs) lo hi a e) (hroom : h + n ≤ e - a)
    (hlow : ∀ a' e', MaximalRun (Covered h bs) lo hi a' e' → h + n ≤ e' - a' → a ≤ a') :
    ∃ cs, allocate h r n bs = some (cs, a) := by
  cases ha : allocate h r n bs with
  | none =>
    have := (allocate_none_iff hbs hh).mp ha a e hrun
    omega
  | some served =>
    obtain ⟨cs, d⟩ := served
    obtain ⟨pre, b, post, rfl, hf, hn, rfl, -, hpre⟩ := allocate_split ha
    have hle := hlow _ _ (free_block_run hbs hh (b := b) (by simp) hf) (by omega)
    obtain ⟨c, hc, hcf, rfl, rfl⟩ := (maximalRun_iff hbs hh).mp hrun
    -- a block with room is the one served or comes behind it
    have hge : b.addr ≤ c.addr := by
      have hpw := hbs.tiles.pairwise
      rw [List.pairwise_append, List.pairwise_cons] at hpw
      rcases List.mem_append.mp hc with hc | hc
      · exact absurd ⟨hcf, by omega⟩ (hpre c hc)
      · rcases List.mem_cons.mp hc with rfl | hc
        · exact le_rfl
        · have := hpw.2.1.1 c hc
          omega
    exact ⟨cs, by rw [le_antisymm hle hge]⟩

end Blocks

end FirstFitRuns
