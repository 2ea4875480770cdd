import SojebOS.FirstFit

/-!
# Used blocks of a first-fit arena

What each operation does to the set of addresses that head used blocks. Releasing what
was just allocated restores the arena, and an arena without used blocks is one block.
-/
namespace FirstFitUsed

open FirstFit

def Used (bs : List Block) (a : ℕ) : Prop := ∃ b ∈ bs, b.free = false ∧ b.addr = a

variable {h r n lo hi : ℕ} {bs cs : List Block} {b c : Block}

section UsedAddresses

theorem used_append {a : ℕ} : Used (bs ++ cs) a ↔ Used bs a ∨ Used cs a := by
  simp only [Used, List.mem_append, or_and_right, exists_or]

theorem used_cons {a : ℕ} : Used (b :: bs) a ↔ b.free = false ∧ b.addr = a ∨ Used bs a := by
  simp [Used, or_and_right, exists_or]

theorem used_carve {a : ℕ} : Used (carve h r n b) a ↔ b.addr = a := by
  unfold carve
  split <;> simp [Used]

theorem used_allocate {a : ℕ} (ha : allocate h r n bs = some (cs, a)) (x : ℕ) :
    Used cs x ↔ x = a ∨ Used bs x := by
  obtain ⟨pre, b, post, rfl, hf, -, rfl, rfl, -⟩ := allocate_split ha
  simp only [used_append, used_cons, used_carve, hf, Bool.true_eq_false, false_and, false_or]
  tauto

theorem used_grow {a : ℕ} (hg : grow h r n a bs = some cs) (ha : Used bs a)
    (ht : Tiles h lo bs hi) (hh : 0 < h) (x : ℕ) : Used cs x ↔ Used bs x := by
  obtain ⟨pre, b, c, post, rfl, rfl, hc, -, rfl⟩ := grow_split hg
  have hbf : b.free = false := by
    obtain ⟨b', hb', hf, he⟩ := ha
    rwa [ht.eq_of_addr hh hb' (c := b) (by simp) he] at hf
  simp only [used_append, used_cons, used_carve, hc, hbf, Bool.true_eq_false, false_and,
    false_or, true_and, or_assoc]
  rfl

theorem mem_of_mem_prepend (hc : c ∈ prepend h b bs) (hf : c.free = false) : c ∈ b :: bs := by
  cases bs with
  | nil => exact hc
  | cons d ds =>
    simp only [prepend] at hc
    split at hc
    · rcases List.mem_cons.mp hc with rfl | hc
      · cases hf
      · exact List.mem_cons_of_mem _ (List.mem_cons_of_mem _ hc)
    · exact hc

theorem used_coalesce (a : ℕ) : Used (coalesce h bs) a ↔ Used bs a := by
  constructor
  · induction bs with
    | nil => exact id
    | cons b bs ih =>
      rintro ⟨c, hc, hf, rfl⟩
      rcases List.mem_cons.mp (mem_of_mem_prepend hc hf) with rfl | hc
      · exact ⟨c, List.mem_cons_self, hf, rfl⟩
      · obtain ⟨d, hd, hdf, hda⟩ := ih ⟨c, hc, hf, rfl⟩
        exact ⟨d, List.mem_cons_of_mem _ hd, hdf, hda⟩
  · rintro ⟨b, hb, hf, rfl⟩
    exact ⟨b, mem_coalesce_used hb hf, hf, rfl⟩

theorem used_release (a x : ℕ) : Used (release h a bs) x ↔ Used bs x ∧ x ≠ a := by
  rw [release, used_coalesce]
  constructor
  · rintro ⟨c, hc, hf, rfl⟩
    obtain ⟨b, hb, rfl⟩ := List.mem_map.mp hc
    by_cases ha : b.addr = a
    · simp [markFree, ha] at hf
    · simp only [markFree, ha, ↓reduceIte] at hf ⊢
      exact ⟨⟨b, hb, hf, rfl⟩, ha⟩
  · rintro ⟨⟨b, hb, hf, rfl⟩, ha⟩
    exact ⟨b, List.mem_map.mpr ⟨b, hb, by simp [markFree, ha]⟩, hf, rfl⟩

end UsedAddresses

section Rooms

/-- Every payload starts at least `r` bytes in front of the end, but for those whose
address is one of the given. -/
def Addressed (h r hi : ℕ) (bs cs : List Block) : Prop :=
  ∀ c ∈ cs, (∃ b ∈ bs, b.addr = c.addr) ∨ c.addr + h + r ≤ hi

theorem addressed_carve (hb : b ∈ bs) (he : b.addr + h + b.size ≤ hi) :
    Addressed h r hi bs (carve h r n b) := by
  intro c hc
  unfold carve at hc
  split at hc
  · simp only [List.mem_cons, List.not_mem_nil, or_false] at hc
    rcases hc with rfl | rfl
    · exact .inl ⟨b, hb, rfl⟩
    · exact .inr (by simp only; omega)
  · simp only [List.mem_cons, List.not_mem_nil, or_false] at hc
    exact .inl ⟨b, hb, by rw [hc]⟩

theorem addressed_allocate {a : ℕ} (ht : Tiles h lo bs hi)
    (ha : allocate h r n bs = some (cs, a)) : Addressed h r hi bs cs := by
  obtain ⟨pre, b, post, rfl, -, -, -, rfl, -⟩ := allocate_split ha
  have hb : b ∈ pre ++ b :: post := by simp
  have he := (ht.mem_bounds hb).2
  intro c hc
  simp only [List.mem_append] at hc
  rcases hc with (hc | hc) | hc
  · exact .inl ⟨c, by simp [hc], rfl⟩
  · exact addressed_carve hb he c hc
  · exact .inl ⟨c, by simp [hc], rfl⟩

theorem addressed_grow {a : ℕ} (ht : Tiles h lo bs hi) (hg : grow h r n a bs = some cs) :
    Addressed h r hi bs cs := by
  obtain ⟨pre, b, c, post, rfl, -, -, -, rfl⟩ := grow_split hg
  have he : (join h b c).addr + h + (join h b c).size ≤ hi := by
    obtain ⟨p, -, rfl, hca, hpost⟩ := tiles_append.mp ht
    have := hpost.le
    simp only [join]
    omega
  intro d hd
  simp only [List.mem_append] at hd
  rcases hd with (hd | hd) | hd
  · exact .inl ⟨d, by simp [hd], rfl⟩
  · rcases addressed_carve (List.mem_singleton_self (join h b c)) he d hd with ⟨x, hx, hxa⟩ | hr
    · obtain rfl : x = join h b c := by simpa using hx
      exact .inl ⟨b, by simp, hxa⟩
    · exact .inr hr
  · exact .inl ⟨d, by simp [hd], rfl⟩

theorem prepend_addr (hc : c ∈ prepend h b bs) : ∃ x ∈ b :: bs, x.addr = c.addr := by
  cases bs with
  | nil => exact ⟨c, hc, rfl⟩
  | cons d ds =>
    simp only [prepend] at hc
    split at hc
    · rcases List.mem_cons.mp hc with rfl | hc
      · exact ⟨b, List.mem_cons_self, rfl⟩
      · exact ⟨c, by simp [hc], rfl⟩
    · exact ⟨c, hc, rfl⟩

theorem coalesce_addr (hc : c ∈ coalesce h bs) : ∃ x ∈ bs, x.addr = c.addr := by
  induction bs generalizing c with
  | nil => cases hc
  | cons b bs ih =>
    obtain ⟨x, hx, hxa⟩ := prepend_addr hc
    rcases List.mem_cons.mp hx with rfl | hx
    · exact ⟨x, List.mem_cons_self, hxa⟩
    · obtain ⟨y, hy, hya⟩ := ih hx
      exact ⟨y, List.mem_cons_of_mem _ hy, hya.trans hxa⟩

theorem release_addr {a : ℕ} (hc : c ∈ release h a bs) : ∃ x ∈ bs, x.addr = c.addr := by
  obtain ⟨x, hx, hxa⟩ := coalesce_addr hc
  obtain ⟨y, hy, rfl⟩ := List.mem_map.mp hx
  refine ⟨y, hy, ?_⟩
  rw [← hxa, markFree]
  split <;> rfl

end Rooms

section RoundTrip

theorem prepend_carve {post : List Block} (hf : b.free = true) (hsp : Separated (b :: post)) :
    ∃ s rest, carve h r n b ++ post = (⟨b.addr, s, false⟩ : Block) :: rest ∧
      prepend h ⟨b.addr, s, true⟩ rest = b :: post := by
  have hb : (⟨b.addr, b.size, true⟩ : Block) = b := by rw [← hf]
  unfold carve
  split
  · rename_i hn
    refine ⟨n, ⟨b.addr + h + n, b.size - n - h, true⟩ :: post, rfl, ?_⟩
    have hj : n + h + (b.size - n - h) = b.size := by omega
    simp only [prepend, and_self, ↓reduceIte, join, hj, hb]
  · refine ⟨b.size, post, rfl, ?_⟩
    rw [hb]
    cases post with
    | nil => rfl
    | cons d ds => simp [prepend, (List.isChain_cons_cons.mp hsp).1]

/-- Releasing what was just allocated gives the arena back. -/
theorem release_allocate {a : ℕ} (hh : 0 < h) (hbs : Arena h lo hi bs)
    (ha : allocate h r n bs = some (cs, a)) : release h a cs = bs := by
  have hcs := allocate_arena hbs ha
  obtain ⟨pre, b, post, rfl, hf, -, rfl, rfl, -⟩ := allocate_split ha
  have hs := List.isChain_append.mp hbs.separated
  obtain ⟨s, rest, hrest, hmerge⟩ := prepend_carve (h := h) (r := r) (n := n) hf hs.2.1
  rw [List.append_assoc, hrest] at hcs ⊢
  have hsep := (List.isChain_cons.mp (List.isChain_append.mp hcs.separated).2.1).2
  have hrel : release h b.addr (pre ++ (⟨b.addr, s, false⟩ : Block) :: rest) =
      pre.foldr (prepend h) (prepend h ⟨b.addr, s, true⟩ rest) :=
    release_eq (hcs.tiles.other_addr hh) hsep
  rw [hrel, hmerge]
  have hpb : Separated ((pre ++ [b]) ++ post) := by simpa using hbs.separated
  exact foldr_prepend (List.isChain_append.mp hpb).1

theorem allocate_within {a : ℕ} (hh : 0 < h) (ht : Tiles h lo cs hi)
    (ha : allocate h r n bs = some (cs, a)) (hc : c ∈ cs) (hca : c.addr = a) :
    ∃ d ∈ bs, d.free = true ∧ d.addr = a ∧ c.size ≤ d.size := by
  obtain ⟨pre, d, post, rfl, hf, hn, rfl, rfl, -⟩ := allocate_split ha
  obtain ⟨s, hs, hmem⟩ : ∃ s ≤ d.size, (⟨d.addr, s, false⟩ : Block) ∈ carve h r n d := by
    unfold carve
    split
    · exact ⟨n, hn, by simp⟩
    · exact ⟨d.size, le_rfl, by simp⟩
  have hsame := ht.eq_of_addr hh hc (c := ⟨d.addr, s, false⟩) (by simp [hmem]) hca
  exact ⟨d, by simp, hf, rfl, by rw [hsame]; exact hs⟩

/-- An arena without used blocks is one free block. -/
theorem all_free (hbs : Arena h lo hi bs) (hlt : lo < hi) (hf : ∀ a, ¬ Used bs a) :
    bs = [⟨lo, hi - lo - h, true⟩] := by
  have hfree : ∀ b ∈ bs, b.free = true := by
    intro b hb
    cases hbf : b.free with
    | true => rfl
    | false => exact absurd ⟨b, hb, hbf, rfl⟩ (hf b.addr)
  have ht := hbs.tiles
  cases bs with
  | nil => exact absurd ht hlt.ne
  | cons b bs =>
    cases bs with
    | nil =>
      obtain ⟨haddr, hend⟩ := ht
      have hbf := hfree b List.mem_cons_self
      have hend : lo + h + b.size = hi := hend
      obtain ⟨addr, size, free⟩ := b
      simp only at haddr hend hbf
      rw [haddr, hbf, show hi - lo - h = size by omega]
    | cons c bs =>
      have hbc := (List.isChain_cons_cons.mp hbs.separated).1
      exact absurd ⟨hfree b (by simp), hfree c (by simp)⟩ hbc

end RoundTrip

end FirstFitUsed
