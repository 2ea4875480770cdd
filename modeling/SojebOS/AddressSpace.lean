import Mathlib.Data.Set.Insert
import Mathlib.Logic.Function.Basic
import Mathlib.Logic.Relation

/-!
# Two-level address spaces over a pool of frames

The slots of a directory point at frames that hold page tables, and pages point at frames
that hold their data. A grant takes frames that nobody holds: one for the page and, where
the page's slot is empty, one for the slot. Which frame is taken is left open, and so is
whether a grant is refused.
-/
namespace AddressSpace

structure Space (φ δ π : Type*) where
  held : Set φ
  table : δ → Option φ
  page : π → Option φ

variable {φ δ π : Type*}

namespace Space

def hold (σ : Space φ δ π) (f : φ) : Space φ δ π := { σ with held := insert f σ.held }

def attach [DecidableEq δ] (σ : Space φ δ π) (d : δ) (t : φ) : Space φ δ π :=
  { σ with table := Function.update σ.table d (some t) }

def point [DecidableEq π] (σ : Space φ δ π) (p : π) (f : φ) : Space φ δ π :=
  { σ with page := Function.update σ.page p (some f) }

end Space

inductive Granted [DecidableEq δ] [DecidableEq π] (slot : π → δ) (p : π) (σ : Space φ δ π) :
    Space φ δ π → Prop where
  | refused : Granted slot p σ σ
  | stranded (f : φ) (hf : f ∉ σ.held) (hs : σ.table (slot p) = none) :
      Granted slot p σ (σ.hold f)
  | placed (f t : φ) (hf : f ∉ σ.held) (hs : σ.table (slot p) = some t) :
      Granted slot p σ ((σ.hold f).point p f)
  | grown (f t : φ) (hf : f ∉ σ.held) (ht : t ∉ (σ.hold f).held) (hs : σ.table (slot p) = none) :
      Granted slot p σ ((((σ.hold f).hold t).attach (slot p) t).point p f)

/-- A page's frame is not one of the kept frames, holds no table, and is no other page's. -/
structure Isolated (kept : Set φ) (σ : Space φ δ π) : Prop where
  kept_held : kept ⊆ σ.held
  table_held : ∀ d t, σ.table d = some t → t ∈ σ.held
  table_injective : ∀ d d' t, σ.table d = some t → σ.table d' = some t → d = d'
  page_held : ∀ p f, σ.page p = some f → f ∈ σ.held
  page_not_kept : ∀ p f, σ.page p = some f → f ∉ kept
  page_not_table : ∀ p d f, σ.page p = some f → σ.table d ≠ some f
  page_injective : ∀ p p' f, σ.page p = some f → σ.page p' = some f → p = p'

section Steps

variable {kept : Set φ} {σ τ : Space φ δ π}

theorem update_some {α : Type*} [DecidableEq α] {f : α → Option φ} {a b : α} {x y : φ}
    (h : Function.update f a (some x) b = some y) : b = a ∧ x = y ∨ f b = some y := by
  by_cases hb : b = a
  · subst hb
    rw [Function.update_self, Option.some.injEq] at h
    exact Or.inl ⟨rfl, h⟩
  · rw [Function.update_of_ne hb] at h
    exact Or.inr h

theorem update_injective {α : Type*} [DecidableEq α] {f : α → Option φ} {a : α} {x : φ}
    (hf : ∀ b c y, f b = some y → f c = some y → b = c) (hx : ∀ b, f b ≠ some x) (b c : α) (y : φ)
    (hb : Function.update f a (some x) b = some y)
    (hc : Function.update f a (some x) c = some y) : b = c := by
  rcases update_some hb with ⟨rfl, rfl⟩ | hb'
  · rcases update_some hc with ⟨rfl, -⟩ | hc'
    · rfl
    · exact absurd hc' (hx c)
  · rcases update_some hc with ⟨rfl, rfl⟩ | hc'
    · exact absurd hb' (hx b)
    · exact hf b c y hb' hc'

theorem Isolated.hold (h : Isolated kept σ) (f : φ) : Isolated kept (σ.hold f) where
  kept_held := h.kept_held.trans (Set.subset_insert f _)
  table_held := fun d t ht => Set.mem_insert_of_mem f (h.table_held d t ht)
  table_injective := h.table_injective
  page_held := fun p g hg => Set.mem_insert_of_mem f (h.page_held p g hg)
  page_not_kept := h.page_not_kept
  page_not_table := h.page_not_table
  page_injective := h.page_injective

theorem Isolated.attach [DecidableEq δ] (h : Isolated kept σ) {d : δ} {t : φ} (ht : t ∈ σ.held)
    (htable : ∀ d', σ.table d' ≠ some t) (hpage : ∀ p, σ.page p ≠ some t) :
    Isolated kept (σ.attach d t) where
  kept_held := h.kept_held
  table_held := by
    intro d' t' ht'
    rcases update_some ht' with ⟨-, rfl⟩ | hold
    · exact ht
    · exact h.table_held d' t' hold
  table_injective := update_injective h.table_injective htable
  page_held := h.page_held
  page_not_kept := h.page_not_kept
  page_not_table := by
    intro p d' f hf ht'
    rcases update_some ht' with ⟨-, rfl⟩ | hold
    · exact hpage p hf
    · exact h.page_not_table p d' f hf hold
  page_injective := h.page_injective

/-- A page may get a held frame that is not kept and that no table and no page uses. -/
theorem Isolated.point [DecidableEq π] (h : Isolated kept σ) {p : π} {f : φ} (hf : f ∈ σ.held)
    (hkept : f ∉ kept) (htable : ∀ d, σ.table d ≠ some f) (hpage : ∀ p', σ.page p' ≠ some f) :
    Isolated kept (σ.point p f) where
  kept_held := h.kept_held
  table_held := h.table_held
  table_injective := h.table_injective
  page_held := by
    intro p' g hg
    rcases update_some hg with ⟨-, rfl⟩ | hold
    · exact hf
    · exact h.page_held p' g hold
  page_not_kept := by
    intro p' g hg
    rcases update_some hg with ⟨-, rfl⟩ | hold
    · exact hkept
    · exact h.page_not_kept p' g hold
  page_not_table := by
    intro p' d g hg
    rcases update_some hg with ⟨-, rfl⟩ | hold
    · exact htable d
    · exact h.page_not_table p' d g hold
  page_injective := update_injective h.page_injective hpage

theorem Isolated.table_ne (h : Isolated kept σ) {f : φ} (hf : f ∉ σ.held) (d : δ) :
    σ.table d ≠ some f :=
  fun e => hf (h.table_held d f e)

theorem Isolated.page_ne (h : Isolated kept σ) {f : φ} (hf : f ∉ σ.held) (p : π) :
    σ.page p ≠ some f :=
  fun e => hf (h.page_held p f e)

theorem Granted.isolated [DecidableEq δ] [DecidableEq π] {slot : π → δ} {p : π}
    (hg : Granted slot p σ τ) (h : Isolated kept σ) : Isolated kept τ := by
  cases hg with
  | refused => exact h
  | stranded f hf hs => exact h.hold f
  | placed f t hf hs =>
    apply (h.hold f).point
    · exact Set.mem_insert f _
    · exact fun hk => hf (h.kept_held hk)
    · exact h.table_ne hf
    · exact h.page_ne hf
  | grown f t hf ht hs =>
    have htf : t ≠ f := by
      intro e
      rw [e] at ht
      exact ht (Set.mem_insert f σ.held)
    have hth : t ∉ σ.held := fun e => ht (Set.mem_insert_of_mem f e)
    have hattach : Isolated kept (((σ.hold f).hold t).attach (slot p) t) :=
      ((h.hold f).hold t).attach (Set.mem_insert t _) (h.table_ne hth) (h.page_ne hth)
    apply hattach.point
    · exact Set.mem_insert_of_mem t (Set.mem_insert f _)
    · exact fun hk => hf (h.kept_held hk)
    · intro d hd
      rcases update_some hd with ⟨-, e⟩ | hold
      · exact htf e
      · exact h.table_ne hf d hold
    · exact h.page_ne hf

theorem Granted.table_kept [DecidableEq δ] [DecidableEq π] {slot : π → δ} {p : π} {d : δ} {t : φ}
    (hg : Granted slot p σ τ) (h : σ.table d = some t) : τ.table d = some t := by
  cases hg with
  | refused => exact h
  | stranded f hf hs => exact h
  | placed f t' hf hs => exact h
  | grown f t' hf ht hs =>
    have hd : d ≠ slot p := by
      intro e
      rw [e, hs] at h
      exact Option.some_ne_none t h.symm
    exact (Function.update_of_ne hd _ _).trans h

theorem Granted.page_other [DecidableEq δ] [DecidableEq π] {slot : π → δ} {p q : π}
    (hg : Granted slot p σ τ) (hq : q ≠ p) : τ.page q = σ.page q := by
  cases hg with
  | refused => rfl
  | stranded f hf hs => rfl
  | placed f t hf hs => exact Function.update_of_ne hq _ _
  | grown f t hf ht hs => exact Function.update_of_ne hq _ _

/-- A page that has a frame never loses it without getting another. -/
theorem Granted.page_ne_none [DecidableEq δ] [DecidableEq π] {slot : π → δ} {p q : π}
    (hg : Granted slot p σ τ) (h : σ.page q ≠ none) : τ.page q ≠ none := by
  by_cases hq : q = p
  · subst hq
    cases hg with
    | refused => exact h
    | stranded f hf hs => exact h
    | placed f t hf hs => simp [Space.point]
    | grown f t hf ht hs => simp [Space.point]
  · rw [hg.page_other hq]
    exact h

end Steps

end AddressSpace
