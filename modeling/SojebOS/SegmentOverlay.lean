import Mathlib.Data.Set.Lattice
import Mathlib.Order.CompletePartialOrder
import Mathlib.Data.List.Basic
import Mathlib.Data.List.Pairwise

/-!
# Patches laid over a memory

A patch blanks a set of places and then writes its values on its range. When patches with
disjoint ranges are laid over a memory one after another, a patch loses exactly the values
that a later one blanks.
-/
namespace SegmentOverlay

variable {α β : Type*}

structure Patch (α β : Type*) where
  range : Set α
  blanked : Set α
  value : α → β

/-- Everything the patch does not touch stays. -/
def Lays (blank : β) (p : Patch α β) (m m' : α → β) : Prop :=
  (∀ x ∈ p.range, m' x = p.value x) ∧
    (∀ x, x ∉ p.range → x ∈ p.blanked → m' x = blank) ∧
      ∀ x, x ∉ p.range → x ∉ p.blanked → m' x = m x

inductive Overlays (blank : β) : List (Patch α β) → (α → β) → (α → β) → Prop where
  | nil (m : α → β) : Overlays blank [] m m
  | cons {p ps m m' m''} (h : Lays blank p m m') (hs : Overlays blank ps m' m'') :
      Overlays blank (p :: ps) m m''

def Shown (ps : List (Patch α β)) (m : α → β) : Prop :=
  ∀ p ∈ ps, ∀ x ∈ p.range, m x = p.value x

/-- What a later patch blanks of an earlier one was blank. -/
def Spared (blank : β) (p q : Patch α β) : Prop :=
  ∀ x ∈ p.range, x ∈ q.blanked → p.value x = blank

section Rules

variable {blank : β} {m m' : α → β} {ps : List (Patch α β)}

theorem Overlays.outside (h : Overlays blank ps m m') {x : α} (hx : ∀ p ∈ ps, x ∉ p.range) :
    (∃ p ∈ ps, x ∈ p.blanked) ∧ m' x = blank ∨ (∀ p ∈ ps, x ∉ p.blanked) ∧ m' x = m x := by
  induction h with
  | nil m => exact Or.inr ⟨fun _ hp => absurd hp List.not_mem_nil, rfl⟩
  | @cons p ps m m₁ m₂ hlay hs ih =>
    have hp := hx p List.mem_cons_self
    rcases ih fun q hq => hx q (List.mem_cons_of_mem p hq) with ⟨⟨q, hq, hb⟩, he⟩ | ⟨hnone, he⟩
    · exact Or.inl ⟨⟨q, List.mem_cons_of_mem p hq, hb⟩, he⟩
    · by_cases hb : x ∈ p.blanked
      · exact Or.inl ⟨⟨p, List.mem_cons_self, hb⟩, he.trans (hlay.2.1 x hp hb)⟩
      · refine Or.inr ⟨?_, he.trans (hlay.2.2 x hp hb)⟩
        intro q hq
        rcases List.mem_cons.mp hq with rfl | hq
        · exact hb
        · exact hnone q hq

/-- All values are in place at the end exactly when each patch is spared by the later ones. -/
theorem Overlays.shown_iff (h : Overlays blank ps m m')
    (hdisj : ps.Pairwise fun p q => Disjoint p.range q.range) :
    Shown ps m' ↔ ps.Pairwise (Spared blank) := by
  induction h with
  | nil m => exact ⟨fun _ => List.Pairwise.nil, fun _ _ hp => absurd hp List.not_mem_nil⟩
  | @cons p ps m m₁ m₂ hlay hs ih =>
    obtain ⟨hp, hps⟩ := List.pairwise_cons.mp hdisj
    have hout : ∀ x ∈ p.range, ∀ q ∈ ps, x ∉ q.range :=
      fun x hx q hq hxq => Set.disjoint_left.mp (hp q hq) hx hxq
    rw [List.pairwise_cons, ← ih hps]
    constructor
    · intro hshown
      refine ⟨?_, fun q hq => hshown q (List.mem_cons_of_mem p hq)⟩
      intro q hq x hx hb
      have hvalue := hshown p List.mem_cons_self x hx
      rcases hs.outside (hout x hx) with ⟨-, he⟩ | ⟨hnone, -⟩
      · exact hvalue.symm.trans he
      · exact absurd hb (hnone q hq)
    · intro hspared q hq x hx
      rcases List.mem_cons.mp hq with rfl | hq
      · rcases hs.outside (hout x hx) with ⟨⟨r, hr, hb⟩, he⟩ | ⟨-, he⟩
        · exact he.trans (hspared.1 r hr x hx hb).symm
        · exact he.trans (hlay.1 x hx)
      · exact hspared.2 q hq x hx

theorem Overlays.value_or_blank (h : Overlays blank ps m m')
    (hdisj : ps.Pairwise fun p q => Disjoint p.range q.range) :
    ∀ p ∈ ps, ∀ x ∈ p.range, m' x = p.value x ∨ m' x = blank := by
  induction h with
  | nil m => exact fun _ hp => absurd hp List.not_mem_nil
  | @cons p ps m m₁ m₂ hlay hs ih =>
    obtain ⟨hp, hps⟩ := List.pairwise_cons.mp hdisj
    intro q hq x hx
    rcases List.mem_cons.mp hq with rfl | hq
    · have hout : ∀ r ∈ ps, x ∉ r.range :=
        fun r hr hxr => Set.disjoint_left.mp (hp r hr) hx hxr
      rcases hs.outside hout with ⟨-, he⟩ | ⟨-, he⟩
      · exact Or.inr he
      · exact Or.inl (he.trans (hlay.1 x hx))
    · exact ih hps q hq x hx

end Rules

end SegmentOverlay
