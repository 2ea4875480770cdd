import Mathlib.Data.List.Chain
import Mathlib.Tactic.Common

/-!
# First-fit arenas

An arena is an address interval tiled by blocks, each a header of `h` bytes and its
payload. Allocation carves the first free block that is large enough, and leaves the
rest free when a header and `r` bytes fit in it. Release marks a block and coalesces.
-/
namespace FirstFit

structure Block where
  addr : ℕ
  size : ℕ
  free : Bool
  deriving DecidableEq, Repr

/-- Consecutive blocks from address `a` to address `e`, without gap or overlap. -/
def Tiles (h : ℕ) : ℕ → List Block → ℕ → Prop
  | a, [], e => a = e
  | a, b :: bs, e => b.addr = a ∧ Tiles h (a + h + b.size) bs e

def Separated (bs : List Block) : Prop :=
  bs.IsChain fun b c => ¬ (b.free = true ∧ c.free = true)

structure Arena (h lo hi : ℕ) (bs : List Block) : Prop where
  tiles : Tiles h lo bs hi
  separated : Separated bs

section Tiling

variable {h : ℕ} {bs cs : List Block} {b c : Block}

theorem tiles_append {a e : ℕ} :
    Tiles h a (bs ++ cs) e ↔ ∃ m, Tiles h a bs m ∧ Tiles h m cs e := by
  induction bs generalizing a with
  | nil => simp [Tiles]
  | cons b bs ih =>
    simp only [List.cons_append, Tiles, ih]
    constructor
    · rintro ⟨hb, m, h1, h2⟩; exact ⟨m, ⟨hb, h1⟩, h2⟩
    · rintro ⟨m, ⟨hb, h1⟩, h2⟩; exact ⟨hb, m, h1, h2⟩

theorem Tiles.le {a e : ℕ} (ht : Tiles h a bs e) : a ≤ e := by
  induction bs generalizing a with
  | nil => exact le_of_eq ht
  | cons b bs ih => have := ih ht.2; omega

theorem Tiles.mem_bounds {a e : ℕ} (ht : Tiles h a bs e) (hb : b ∈ bs) :
    a ≤ b.addr ∧ b.addr + h + b.size ≤ e := by
  induction bs generalizing a with
  | nil => simp at hb
  | cons x bs ih =>
    obtain ⟨hx, ht⟩ := ht
    rcases List.mem_cons.mp hb with rfl | hb
    · exact ⟨hx.ge, hx ▸ ht.le⟩
    · have := ih ht hb; omega

theorem Tiles.pairwise {a e : ℕ} (ht : Tiles h a bs e) :
    bs.Pairwise fun b c => b.addr + h + b.size ≤ c.addr := by
  induction bs generalizing a with
  | nil => exact List.Pairwise.nil
  | cons x bs ih =>
    obtain ⟨rfl, ht⟩ := ht
    exact List.pairwise_cons.mpr ⟨fun c hc => (ht.mem_bounds hc).1, ih ht⟩

theorem Tiles.length_le {a e : ℕ} (ht : Tiles h a bs e) (hh : 0 < h) : bs.length ≤ e - a := by
  induction bs generalizing a with
  | nil => simp
  | cons x bs ih =>
    have h1 := ih ht.2
    have h2 := ht.2.le
    simp only [List.length_cons]
    omega

theorem Tiles.apart {a e : ℕ} (ht : Tiles h a bs e) (hb : b ∈ bs) (hc : c ∈ bs)
    (hne : b ≠ c) : b.addr + h + b.size ≤ c.addr ∨ c.addr + h + c.size ≤ b.addr := by
  induction bs generalizing a with
  | nil => simp at hb
  | cons x bs ih =>
    obtain ⟨rfl, ht⟩ := ht
    rcases List.mem_cons.mp hb with hbx | hbs <;> rcases List.mem_cons.mp hc with hcx | hcs
    · exact absurd (hbx.trans hcx.symm) hne
    · exact .inl (hbx ▸ (ht.mem_bounds hcs).1)
    · exact .inr (hcx ▸ (ht.mem_bounds hbs).1)
    · exact ih ht hbs hcs

theorem Tiles.eq_of_addr {a e : ℕ} (ht : Tiles h a bs e) (hh : 0 < h) (hb : b ∈ bs)
    (hc : c ∈ bs) (ha : b.addr = c.addr) : b = c := by
  by_contra hne
  have := ht.apart hb hc hne
  omega

end Tiling

section Operations

variable (h r n : ℕ)

/-- Serve `n` bytes from a block, splitting off what is worth keeping. -/
def carve (b : Block) : List Block :=
  if n + h + r ≤ b.size then
    [⟨b.addr, n, false⟩, ⟨b.addr + h + n, b.size - n - h, true⟩]
  else [⟨b.addr, b.size, false⟩]

def allocate : List Block → Option (List Block × ℕ)
  | [] => none
  | b :: bs =>
    if b.free = true ∧ n ≤ b.size then some (carve h r n b ++ bs, b.addr)
    else (allocate bs).map fun p => (b :: p.1, p.2)

def join (b c : Block) : Block := ⟨b.addr, b.size + h + c.size, true⟩

/-- Put a block in front, merging it with a free successor when it is free itself. -/
def prepend (b : Block) : List Block → List Block
  | [] => [b]
  | c :: cs => if b.free = true ∧ c.free = true then join h b c :: cs else b :: c :: cs

def coalesce (bs : List Block) : List Block := bs.foldr (prepend h) []

def markFree (a : ℕ) (b : Block) : Block := if b.addr = a then { b with free := true } else b

def release (a : ℕ) (bs : List Block) : List Block := coalesce h (bs.map (markFree a))

/-- Enlarge the block at `a` to `n` bytes by carving it together with a free successor. -/
def grow (a : ℕ) : List Block → Option (List Block)
  | b :: c :: bs =>
    if b.addr = a then
      if c.free = true ∧ n ≤ b.size + h + c.size then some (carve h r n (join h b c) ++ bs)
      else none
    else (grow a (c :: bs)).map (b :: ·)
  | _ => none

end Operations

section Laws

variable {h r n lo hi : ℕ} {bs cs : List Block} {b c : Block}

theorem carve_tiles {e : ℕ} (ht : Tiles h b.addr [b] e) :
    Tiles h b.addr (carve h r n b) e := by
  unfold carve
  simp only [Tiles, true_and] at ht
  split
  · simp only [Tiles, true_and]
    omega
  · simpa only [Tiles, true_and] using ht

theorem replace_tiles {pre mid' post : List Block} (mid : List Block)
    (ht : Tiles h lo (pre ++ mid ++ post) hi)
    (hm : ∀ a e, Tiles h a mid e → Tiles h a mid' e) :
    Tiles h lo (pre ++ mid' ++ post) hi := by
  simp only [tiles_append] at ht ⊢
  obtain ⟨q, ⟨p, hp, hmid⟩, hq⟩ := ht
  exact ⟨q, ⟨p, hp, hm p q hmid⟩, hq⟩

theorem allocate_split {a : ℕ} (ha : allocate h r n bs = some (cs, a)) :
    ∃ pre b post, bs = pre ++ b :: post ∧ b.free = true ∧ n ≤ b.size ∧ b.addr = a ∧
      cs = pre ++ carve h r n b ++ post ∧ ∀ x ∈ pre, ¬ (x.free = true ∧ n ≤ x.size) := by
  induction bs generalizing cs with
  | nil => simp [allocate] at ha
  | cons x bs ih =>
    by_cases hx : x.free = true ∧ n ≤ x.size
    · simp only [allocate, hx, and_self, ↓reduceIte, Option.some.injEq, Prod.mk.injEq] at ha
      exact ⟨[], x, bs, rfl, hx.1, hx.2, ha.2, by simp [← ha.1], by simp⟩
    · simp only [allocate, hx, ↓reduceIte, Option.map_eq_some_iff, Prod.mk.injEq] at ha
      obtain ⟨⟨ds, d⟩, hd, rfl, rfl⟩ := ha
      obtain ⟨pre, y, post, rfl, h1, h2, h3, rfl, h4⟩ := ih hd
      refine ⟨x :: pre, y, post, rfl, h1, h2, h3, rfl, ?_⟩
      intro z hz
      rcases List.mem_cons.mp hz with rfl | hz
      · exact hx
      · exact h4 z hz

theorem allocate_none (ha : allocate h r n bs = none) :
    ∀ b ∈ bs, ¬ (b.free = true ∧ n ≤ b.size) := by
  induction bs with
  | nil => simp
  | cons x bs ih =>
    intro b hb
    by_cases hx : x.free = true ∧ n ≤ x.size
    · simp [allocate, hx] at ha
    · simp only [allocate, hx, ↓reduceIte, Option.map_eq_none_iff] at ha
      rcases List.mem_cons.mp hb with rfl | hb
      · exact hx
      · exact ih ha b hb

/-- What is carved starts with a used block, so only its last block and the next
one could both be free. -/
theorem carve_separated {pre post : List Block} (hp : Separated pre)
    (hb : Separated (b :: post)) (hf : b.free = true) :
    Separated (pre ++ carve h r n b ++ post) := by
  simp only [Separated, List.isChain_append, List.isChain_cons] at hp hb ⊢
  unfold carve
  split
  · simp_all
  · simp_all

theorem allocate_arena {a : ℕ} (hbs : Arena h lo hi bs)
    (ha : allocate h r n bs = some (cs, a)) : Arena h lo hi cs := by
  obtain ⟨pre, b, post, rfl, hf, -, -, rfl, -⟩ := allocate_split ha
  refine ⟨replace_tiles [b] (by simpa using hbs.tiles) ?_,
    carve_separated (List.isChain_append.mp hbs.separated).1
      (List.isChain_append.mp hbs.separated).2.1 hf⟩
  intro p e ht
  have hp : b.addr = p := ht.1
  subst hp
  exact carve_tiles ht

theorem carve_used : ∃ s, n ≤ b.size → n ≤ s ∧ (⟨b.addr, s, false⟩ : Block) ∈ carve h r n b := by
  unfold carve
  split
  · exact ⟨n, fun _ => ⟨le_rfl, by simp⟩⟩
  · exact ⟨b.size, fun hn => ⟨hn, by simp⟩⟩

theorem allocate_served {a : ℕ} (ha : allocate h r n bs = some (cs, a)) :
    (∃ s, n ≤ s ∧ (⟨a, s, false⟩ : Block) ∈ cs) ∧
    ∀ c ∈ bs, c.free = false → c ∈ cs := by
  obtain ⟨pre, b, post, rfl, hf, hn, rfl, rfl, -⟩ := allocate_split ha
  constructor
  · obtain ⟨s, hs⟩ := carve_used (h := h) (r := r) (n := n) (b := b)
    exact ⟨s, (hs hn).1, by simp [(hs hn).2]⟩
  · intro c hc hcf
    have hne : c ≠ b := fun he => by simp [he, hf] at hcf
    simp only [List.mem_append, List.mem_cons] at hc ⊢
    rcases hc with hc | hc | hc
    · exact .inl (.inl hc)
    · exact absurd hc hne
    · exact .inr hc

theorem prepend_tiles {a e : ℕ} (ht : Tiles h a (b :: bs) e) : Tiles h a (prepend h b bs) e := by
  cases bs with
  | nil => exact ht
  | cons c cs =>
    simp only [prepend]
    split
    · simp only [Tiles, join] at ht ⊢
      obtain ⟨hb, hc, ht⟩ := ht
      refine ⟨hb, ?_⟩
      rwa [show a + h + (b.size + h + c.size) = a + h + b.size + h + c.size by omega]
    · exact ht

theorem prepend_separated (hs : Separated bs) : Separated (prepend h b bs) := by
  cases bs with
  | nil => exact .singleton _
  | cons c cs =>
    simp only [prepend]
    split
    · rename_i hbc
      cases cs with
      | nil => exact .singleton _
      | cons d ds =>
        simp only [Separated, List.isChain_cons_cons] at hs ⊢
        exact ⟨fun hj => hs.1 ⟨hbc.2, hj.2⟩, hs.2⟩
    · rename_i hbc
      exact List.isChain_cons_cons.mpr ⟨hbc, hs⟩

theorem coalesce_arena (ht : Tiles h lo bs hi) : Arena h lo hi (coalesce h bs) := by
  induction bs generalizing lo with
  | nil => exact ⟨ht, List.isChain_nil⟩
  | cons b bs ih =>
    have hc := ih ht.2
    exact ⟨prepend_tiles ⟨ht.1, hc.tiles⟩, prepend_separated hc.separated⟩

theorem markFree_tiles {a p e : ℕ} (ht : Tiles h p bs e) :
    Tiles h p (bs.map (markFree a)) e := by
  induction bs generalizing p with
  | nil => exact ht
  | cons b bs ih =>
    have hm : (markFree a b).addr = b.addr ∧ (markFree a b).size = b.size := by
      unfold markFree
      split <;> exact ⟨rfl, rfl⟩
    simp only [List.map_cons, Tiles, hm]
    exact ⟨ht.1, ih ht.2⟩

theorem release_arena {a : ℕ} (ht : Tiles h lo bs hi) : Arena h lo hi (release h a bs) :=
  coalesce_arena (markFree_tiles ht)

theorem mem_prepend_used (hc : c ∈ b :: bs) (hf : c.free = false) : c ∈ prepend h b bs := by
  cases bs with
  | nil => exact hc
  | cons d ds =>
    simp only [prepend]
    split
    · rename_i hbd
      simp only [List.mem_cons] at hc ⊢
      rcases hc with rfl | rfl | hc
      · simp [hf] at hbd
      · simp [hf] at hbd
      · exact .inr hc
    · exact hc

theorem mem_coalesce_used (hc : c ∈ bs) (hf : c.free = false) : c ∈ coalesce h bs := by
  induction bs with
  | nil => simp at hc
  | cons b bs ih =>
    refine mem_prepend_used ?_ hf
    rcases List.mem_cons.mp hc with rfl | hc
    · exact List.mem_cons_self
    · exact List.mem_cons_of_mem _ (ih hc)

theorem release_keeps {a : ℕ} (hc : c ∈ bs) (hf : c.free = false) (ha : c.addr ≠ a) :
    c ∈ release h a bs := by
  refine mem_coalesce_used ?_ hf
  exact List.mem_map.mpr ⟨c, hc, by simp [markFree, ha]⟩

theorem foldr_prepend {pre post : List Block} (hs : Separated (pre ++ [b])) :
    pre.foldr (prepend h) (b :: post) = pre ++ b :: post := by
  induction pre with
  | nil => rfl
  | cons x pre ih =>
    have hs' := hs
    rw [List.cons_append] at hs
    rw [List.foldr_cons, ih (List.isChain_cons.mp hs).2]
    cases pre with
    | nil =>
      simp only [List.nil_append, Separated, List.isChain_cons_cons] at hs
      simp [prepend, hs.1]
    | cons y pre =>
      simp only [List.cons_append, Separated, List.isChain_cons_cons] at hs
      simp [prepend, hs.1]

theorem coalesce_eq_self (hs : Separated bs) : coalesce h bs = bs := by
  induction bs with
  | nil => rfl
  | cons b bs ih =>
    have hc : coalesce h (b :: bs) = prepend h b (coalesce h bs) := rfl
    rw [hc, ih (List.isChain_cons.mp hs).2]
    cases bs with
    | nil => rfl
    | cons c bs => simp [prepend, (List.isChain_cons_cons.mp hs).1]

theorem map_markFree {pre post : List Block} (hne : ∀ x ∈ pre ++ post, x.addr ≠ b.addr) :
    (pre ++ b :: post).map (markFree b.addr) = pre ++ { b with free := true } :: post := by
  have hid : ∀ l : List Block, (∀ x ∈ l, x.addr ≠ b.addr) → l.map (markFree b.addr) = l := by
    intro l hl
    refine (List.map_congr_left fun x hx => ?_).trans (List.map_id l)
    exact if_neg (hl x hx)
  rw [List.map_append, List.map_cons, hid pre fun x hx => hne x (by simp [hx]),
    hid post fun x hx => hne x (by simp [hx]), markFree, if_pos rfl]

theorem release_eq {pre post : List Block} (hne : ∀ x ∈ pre ++ post, x.addr ≠ b.addr)
    (hs : Separated post) : release h b.addr (pre ++ b :: post) =
      pre.foldr (prepend h) (prepend h { b with free := true } post) := by
  have hpost : post.foldr (prepend h) [] = post := coalesce_eq_self hs
  rw [release, map_markFree hne, coalesce, List.foldr_append, List.foldr_cons, hpost]

theorem prepend_head (bs : List Block) (hb : b.free = true) :
    ∃ x xs, prepend h b bs = x :: xs ∧ x.free = true ∧ x.addr = b.addr := by
  cases bs with
  | nil => exact ⟨b, [], rfl, hb, rfl⟩
  | cons c cs =>
    cases hc : c.free with
    | true => exact ⟨join h b c, cs, by simp [prepend, hb, hc], rfl, rfl⟩
    | false => exact ⟨b, c :: cs, by simp [prepend, hc], hb, rfl⟩

theorem Tiles.other_addr {pre post : List Block} (ht : Tiles h lo (pre ++ b :: post) hi)
    (hh : 0 < h) :
    ∀ x ∈ pre ++ post, x.addr ≠ b.addr := by
  intro x hx he
  have hp := ht.pairwise
  rw [List.pairwise_append, List.pairwise_cons] at hp
  rcases List.mem_append.mp hx with hx | hx
  · have := hp.2.2 x hx b List.mem_cons_self
    omega
  · have := hp.2.1.1 x hx
    omega

theorem grow_split {a : ℕ}
    (hg : grow h r n a bs = some cs) :
    ∃ pre b c post, bs = pre ++ b :: c :: post ∧ b.addr = a ∧ c.free = true ∧
      n ≤ b.size + h + c.size ∧ cs = pre ++ carve h r n (join h b c) ++ post := by
  induction bs generalizing cs with
  | nil => simp [grow] at hg
  | cons b bs ih =>
    cases bs with
    | nil => simp [grow] at hg
    | cons c bs =>
      by_cases hb : b.addr = a
      · simp only [grow, hb, ↓reduceIte, Option.ite_none_right_eq_some,
          Option.some.injEq] at hg
        obtain ⟨⟨hc, hn⟩, rfl⟩ := hg
        exact ⟨[], b, c, bs, rfl, hb, hc, hn, rfl⟩
      · simp only [grow, hb, ↓reduceIte, Option.map_eq_some_iff] at hg
        obtain ⟨ds, hd, rfl⟩ := hg
        obtain ⟨pre, x, y, post, hbs, h1, h2, h3, rfl⟩ := ih hd
        exact ⟨b :: pre, x, y, post, by simp [hbs], h1, h2, h3, rfl⟩

theorem grow_eq {pre post : List Block} (hne : ∀ x ∈ pre ++ c :: post, x.addr ≠ b.addr)
    (hc : c.free = true) (hn : n ≤ b.size + h + c.size) :
    grow h r n b.addr (pre ++ b :: c :: post) =
      some (pre ++ carve h r n (join h b c) ++ post) := by
  induction pre with
  | nil => simp [grow, hc, hn]
  | cons x pre ih =>
    have hx := hne x (by simp)
    have ih := ih fun y hy => hne y (by simp_all)
    cases pre with
    | nil => simp_all [grow]
    | cons y pre => simp_all [grow]

theorem grow_arena {a : ℕ} (hbs : Arena h lo hi bs)
    (hg : grow h r n a bs = some cs) : Arena h lo hi cs := by
  obtain ⟨pre, b, c, post, rfl, -, hc, -, rfl⟩ := grow_split hg
  constructor
  · refine replace_tiles [b, c] (by simpa using hbs.tiles) ?_
    intro p e ht
    have hp : (join h b c).addr = p := ht.1
    have hj : Tiles h (join h b c).addr [join h b c] e := by
      obtain ⟨-, hca, he⟩ := ht
      refine ⟨rfl, ?_⟩
      simp only [Tiles, join] at he hp ⊢
      omega
    exact hp ▸ carve_tiles hj
  · have hs := List.isChain_append.mp hbs.separated
    refine carve_separated hs.1 ?_ rfl
    have hcp := (List.isChain_cons.mp hs.2.1).2
    rw [List.isChain_cons] at hcp
    exact List.isChain_cons.mpr ⟨fun y hy hj => hcp.1 y hy ⟨hc, hj.2⟩, hcp.2⟩

theorem grow_served {a : ℕ} (hg : grow h r n a bs = some cs) :
    (∃ s, n ≤ s ∧ (⟨a, s, false⟩ : Block) ∈ cs) ∧
    ∀ x ∈ bs, x.free = false → x.addr ≠ a → x ∈ cs := by
  obtain ⟨pre, b, c, post, rfl, rfl, hc, hn, rfl⟩ := grow_split hg
  constructor
  · obtain ⟨s, hs⟩ := carve_used (h := h) (r := r) (n := n) (b := join h b c)
    exact ⟨s, (hs hn).1, by simpa using .inr (.inl (hs hn).2)⟩
  · intro x hx hxf hxa
    have hxb : x ≠ b := fun he => hxa (he ▸ rfl)
    have hxc : x ≠ c := fun he => by simp [he, hc] at hxf
    simp only [List.mem_append, List.mem_cons, hxb, hxc, false_or] at hx ⊢
    exact hx.imp_left .inl

end Laws

end FirstFit
