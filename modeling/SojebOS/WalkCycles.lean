import Mathlib.Combinatorics.Pigeonhole
import Mathlib.Logic.Relation
import SojebOS.LinkedChain

/-!
# Walks that go round in circles

A walk follows links until it comes to an end marker or is stopped by what it visits. When
only finitely many elements are no end markers, it goes on for ever exactly when it comes to
a cycle on which nothing stops it.
-/
namespace WalkCycles

open WhileLoop LinkedChain

section Cycles

variable {α ρ : Type*} {next : α → α} {ends stops : α → Prop} {a b : α}

def Passes (next : α → α) (ends stops : α → Prop) (a b : α) : Prop :=
  (¬ ends a ∧ ¬ stops a) ∧ next a = b

/-- The walk comes to a cycle that it does not leave. -/
def Circles (next : α → α) (ends stops : α → Prop) (a : α) : Prop :=
  ∃ c, Relation.ReflTransGen (Passes next ends stops) a c ∧
    Relation.TransGen (Passes next ends stops) c c

/-- No element that is not an end marker comes back to itself. -/
def Acyclic (next : α → α) (ends : α → Prop) : Prop :=
  ∀ c, ¬ Relation.TransGen (fun a b => ¬ ends a ∧ next a = b) c c

theorem Circles.passes (h : Circles next ends stops a) :
    Passes next ends stops a (next a) ∧ Circles next ends stops (next a) := by
  obtain ⟨c, hac, hcc⟩ := h
  rcases hac.cases_head with rfl | ⟨b, hab, hbc⟩
  · obtain ⟨b, hab, hbc⟩ := Relation.TransGen.head'_iff.mp hcc
    obtain rfl := hab.2
    exact ⟨hab, a, hbc, hcc⟩
  · obtain rfl := hab.2
    exact ⟨hab, c, hbc, hcc⟩

theorem Acyclic.not_circles (h : Acyclic next ends) : ¬ Circles next ends stops a :=
  fun ⟨c, _, hcc⟩ => h c (Relation.TransGen.mono (fun _ _ hp => ⟨hp.1.1, hp.2⟩) _ _ hcc)

theorem acyclic_of_rank (rank : α → ℕ) (h : ∀ a, ¬ ends a → rank (next a) < rank a) :
    Acyclic next ends := by
  intro c hcc
  have hfalls : ∀ {a b}, Relation.TransGen (fun a b => ¬ ends a ∧ next a = b) a b →
      rank b < rank a := by
    intro a b hab
    induction hab with
    | single hab => exact hab.2 ▸ h _ hab.1
    | tail _ hbc ih => exact (hbc.2 ▸ h _ hbc.1).trans ih
  exact (hfalls hcc).false

theorem circles_of_passes (S : Finset α) (hS : ∀ c, ¬ ends c → c ∈ S)
    (h : ∀ i ≤ S.card, Passes next ends stops (next^[i] a) (next^[i + 1] a)) :
    Circles next ends stops a := by
  have hreach : ∀ i k, i + k ≤ S.card + 1 →
      Relation.ReflTransGen (Passes next ends stops) (next^[i] a) (next^[i + k] a) := by
    intro i k
    induction k with
    | zero => exact fun _ => .refl
    | succ k ih => exact fun hk => (ih (by omega)).tail (h (i + k) (by omega))
  have hcard : S.card < (Finset.range (S.card + 1)).card := by
    rw [Finset.card_range]
    exact Nat.lt_succ_self _
  obtain ⟨i, hi, j, hj, hne, heq⟩ := Finset.exists_ne_map_eq_of_card_lt_of_maps_to hcard
    (f := fun i : ℕ => next^[i] a)
    fun i hi => hS _ (h i (Nat.lt_succ_iff.mp (Finset.mem_range.mp hi))).1.1
  have hmeet : ∀ i j, i < j → j ≤ S.card → next^[i] a = next^[j] a →
      Circles next ends stops a := by
    intro i j hij hj heq
    have hfirst := hreach 0 i (by omega)
    rw [Nat.zero_add, Function.iterate_zero_apply] at hfirst
    have hround := hreach (i + 1) (j - (i + 1)) (by omega)
    rw [Nat.add_sub_cancel' hij, ← heq] at hround
    exact ⟨next^[i] a, hfirst, .head' (h i (by omega)) hround⟩
  rw [Finset.mem_range, Nat.lt_succ_iff] at hi hj
  rcases Nat.lt_or_gt_of_ne hne with hij | hij
  · exact hmeet i j hij hj heq
  · exact hmeet j i hij hi heq.symm

end Cycles

section Walks

variable {α ρ : Type*} {next : α → α} {ends : α → Prop} [DecidablePred ends]
variable {visit : α → Option ρ} {a b : α}

theorem walkBody_again : walkBody next ends visit a = .again b ↔
    Passes next ends (fun c => visit c ≠ none) a b := by
  unfold Passes walkBody
  by_cases ha : ends a
  · simp only [ha, ↓reduceIte, reduceCtorEq, not_true_eq_false, false_and]
  · cases hv : visit a with
    | none => simp [ha, hv]
    | some r => simp [ha, hv]

theorem walk_circles (h : Circles next ends (fun c => visit c ≠ none) a) (n : ℕ) :
    run (walkBody next ends visit) n a = none :=
  run_never_leaves (Circles next ends fun c => visit c ≠ none)
    (fun s hs => ⟨next s, walkBody_again.mpr hs.passes.1, hs.passes.2⟩) n h

/-- A walk that has not left after some rounds has passed over an element in each of them. -/
theorem passes_of_run {n : ℕ} (h : run (walkBody next ends visit) n a = none) {i : ℕ}
    (hi : i < n) :
    Passes next ends (fun c => visit c ≠ none) (next^[i] a) (next^[i + 1] a) := by
  induction n generalizing a i with
  | zero => exact absurd hi (Nat.not_lt_zero i)
  | succ n ih =>
    cases hb : walkBody next ends visit a with
    | leave r =>
      rw [run_leave hb] at h
      cases h
    | again b =>
      rw [run_again hb] at h
      have hpass := walkBody_again.mp hb
      cases i with
      | zero =>
        obtain rfl := hpass.2
        exact hpass
      | succ i =>
        obtain rfl := hpass.2
        exact ih h (Nat.lt_of_succ_lt_succ hi)

theorem walk_none_iff (S : Finset α) (hS : ∀ c, ¬ ends c → c ∈ S) {n : ℕ} (hn : S.card < n) :
    run (walkBody next ends visit) n a = none ↔
      Circles next ends (fun c => visit c ≠ none) a :=
  ⟨fun h => circles_of_passes S hS fun _ hi => passes_of_run h (Nat.lt_of_le_of_lt hi hn),
    fun h => walk_circles h n⟩

end Walks

end WalkCycles
