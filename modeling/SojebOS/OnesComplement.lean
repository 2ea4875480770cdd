import Mathlib.Algebra.BigOperators.Group.List.Basic
import Mathlib.Data.Nat.ModEq
import Mathlib.Tactic.Ring

/-!
# One's complement sums

Words up to `top` are added with the carry brought around to the low end. The sum is the
remainder modulo `top`, of which zero has two representations: nothing but zeros add up to 0,
and every other multiple of `top` is `top`.
-/
namespace OnesComplement

def carryAround (top n : ℕ) : ℕ := n % (top + 1) + n / (top + 1)

def onesSum (top : ℕ) (words : List ℕ) : ℕ :=
  words.foldl (fun sum x => carryAround top (sum + x)) 0

/-- The one word that stands for `n`. -/
def residue (top n : ℕ) : ℕ := if n = 0 then 0 else (n - 1) % top + 1

section Words

variable {top n x y : ℕ}

theorem carryAround_modEq (top n : ℕ) : carryAround top n ≡ n [MOD top] := by
  have hsplit : carryAround top n + top * (n / (top + 1)) = n := by
    have hdiv := Nat.div_add_mod n (top + 1)
    rw [Nat.add_mul, Nat.one_mul] at hdiv
    unfold carryAround
    omega
  have hmultiple : top * (n / (top + 1)) ≡ 0 [MOD top] :=
    (Nat.modEq_zero_iff_dvd).mpr (dvd_mul_right top _)
  have hadd := (Nat.ModEq.refl (carryAround top n)).add hmultiple
  rw [hsplit, Nat.add_zero] at hadd
  exact hadd.symm

theorem carryAround_eq_zero : carryAround top n = 0 ↔ n = 0 := by
  have hdiv := Nat.div_add_mod n (top + 1)
  unfold carryAround
  constructor
  · intro h
    obtain ⟨hmod, hquot⟩ := Nat.add_eq_zero_iff.mp h
    rw [hmod, hquot] at hdiv
    omega
  · intro h
    subst h
    simp

theorem carryAround_lt (hx : x ≤ top) (hy : y ≤ top) : carryAround top (x + y) ≤ top := by
  unfold carryAround
  by_cases hcarry : x + y < top + 1
  · rw [Nat.mod_eq_of_lt hcarry, Nat.div_eq_of_lt hcarry]
    omega
  · have hquot : (x + y) / (top + 1) = 1 := Nat.div_eq_of_lt_le (by omega) (by omega)
    have hdiv := Nat.div_add_mod (x + y) (top + 1)
    rw [hquot] at hdiv ⊢
    omega

theorem residue_le (htop : 0 < top) (n : ℕ) : residue top n ≤ top := by
  unfold residue
  split
  · exact Nat.zero_le top
  · exact Nat.mod_lt _ htop

theorem residue_modEq (top n : ℕ) : residue top n ≡ n [MOD top] := by
  unfold residue
  split
  · next h => rw [h]
  · next h =>
    have hadd := (Nat.mod_modEq (n - 1) top).add_right 1
    rw [Nat.sub_add_cancel (Nat.pos_of_ne_zero h)] at hadd
    exact hadd

theorem residue_eq_zero : residue top n = 0 ↔ n = 0 := by
  unfold residue
  split
  · next h => exact iff_of_true rfl h
  · next h => exact iff_of_false (Nat.succ_ne_zero _) h

/-- What is congruent to `n`, and is 0 when `n` is, stands for it. -/
theorem residue_unique (hx : x ≤ top) (hmod : x ≡ n [MOD top]) (hzero : x = 0 ↔ n = 0) :
    x = residue top n := by
  unfold residue
  split
  · next h => exact hzero.mpr h
  · next h =>
    have hpos : x ≠ 0 := fun hx => h (hzero.mp hx)
    have hsub : x - 1 ≡ n - 1 [MOD top] := by
      apply Nat.ModEq.add_right_cancel' 1
      rw [Nat.sub_add_cancel (by omega), Nat.sub_add_cancel (by omega)]
      exact hmod
    rw [← hsub, Nat.mod_eq_of_lt (by omega)]
    omega

theorem residue_congr (htop : 0 < top) (hmod : x ≡ y [MOD top]) (hzero : x = 0 ↔ y = 0) :
    residue top x = residue top y :=
  residue_unique (residue_le htop x) ((residue_modEq top x).trans hmod)
    (residue_eq_zero.trans hzero)

theorem residue_self (hx : x ≤ top) : residue top x = x :=
  (residue_unique hx (Nat.ModEq.refl x) Iff.rfl).symm

theorem residue_add_complement (htop : 0 < top) (n : ℕ) :
    residue top (n + (top - residue top n)) = top := by
  have hle := residue_le htop n
  have hmod : top ≡ n + (top - residue top n) [MOD top] := by
    have hadd := (residue_modEq top n).add_right (top - residue top n)
    rw [Nat.add_sub_cancel' hle] at hadd
    exact hadd
  have hzero : top = 0 ↔ n + (top - residue top n) = 0 := by
    constructor
    · omega
    · intro h
      have hn : n = 0 := by omega
      have hres : residue top n = 0 := residue_eq_zero.mpr hn
      omega
  exact (residue_unique le_rfl hmod hzero).symm

end Words

section Sums

variable {top : ℕ} {words : List ℕ}

theorem onesSum_eq_residue (htop : 0 < top) (hwords : ∀ x ∈ words, x ≤ top) :
    onesSum top words = residue top words.sum := by
  have hfold : ∀ sum ≤ top, words.foldl (fun sum x => carryAround top (sum + x)) sum =
      residue top (sum + words.sum) := by
    induction words with
    | nil =>
      intro sum hsum
      exact (residue_self hsum).symm
    | cons x words ih =>
      intro sum hsum
      have hx := hwords x List.mem_cons_self
      have hmod := (carryAround_modEq top (sum + x)).add_right words.sum
      rw [List.foldl_cons, ih (fun y hy => hwords y (List.mem_cons_of_mem x hy)) _
        (carryAround_lt hsum hx), List.sum_cons, ← Nat.add_assoc]
      apply residue_congr htop hmod
      rw [Nat.add_eq_zero_iff, carryAround_eq_zero, Nat.add_eq_zero_iff (n := sum + x)]
  exact (hfold 0 (Nat.zero_le top)).trans (congrArg (residue top) (Nat.zero_add _))

theorem residue_sum_map (htop : 0 < top) {f : ℕ → ℕ} {c : ℕ} (hle : ∀ x ≤ top, f x ≤ top)
    (hf : ∀ x, x ≤ top → f x ≡ c * x [MOD top]) (hzero : ∀ x ≤ top, f x = 0 ↔ x = 0)
    (hwords : ∀ x ∈ words, x ≤ top) :
    residue top (words.map f).sum = f (residue top words.sum) := by
  have hmod : (words.map f).sum ≡ c * words.sum [MOD top] := by
    induction words with
    | nil => exact Nat.ModEq.refl 0
    | cons x words ih =>
      have hx := hf x (hwords x List.mem_cons_self)
      have hrest := ih fun y hy => hwords y (List.mem_cons_of_mem x hy)
      rw [List.map_cons, List.sum_cons, List.sum_cons, Nat.mul_add]
      exact hx.add hrest
  have hsum : (words.map f).sum = 0 ↔ words.sum = 0 := by
    rw [List.sum_eq_zero_iff_forall_eq_nat, List.sum_eq_zero_iff_forall_eq_nat,
      List.forall_mem_map]
    exact forall₂_congr fun x hx => hzero x (hwords x hx)
  have hres := residue_le htop words.sum
  symm
  apply residue_unique (hle _ hres)
  · exact ((hf _ hres).trans ((residue_modEq top words.sum).mul_left c)).trans hmod.symm
  · rw [hzero _ hres, residue_eq_zero, hsum]

end Sums

end OnesComplement
