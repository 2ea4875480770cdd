import Mathlib.Data.Nat.Notation
import Mathlib.Order.Basic
import Mathlib.Data.List.Basic

/-!
# Loops with an early exit

A C loop is a body that either goes round again with a new state or leaves with a
result. `run` gives it a budget of rounds, and `none` means that the budget ran out.
A deterministic loop over fewer than `n` states that outlives `n` rounds never ends.
A `for` loop over a list that returns at its first hit is the `findSome?` of the list.
-/
namespace WhileLoop

inductive Iteration (σ ρ : Type*) where
  | again (s : σ)
  | leave (r : ρ)

def run {σ ρ : Type*} (body : σ → Iteration σ ρ) : ℕ → σ → Option ρ
  | 0, _ => none
  | n + 1, s =>
    match body s with
    | .again t => run body n t
    | .leave r => some r

section Rules

variable {σ ρ : Type*} {body : σ → Iteration σ ρ}

theorem run_again {s t : σ} (h : body s = .again t) (n : ℕ) :
    run body (n + 1) s = run body n t := by
  simp only [run, h]

theorem run_leave {s : σ} {r : ρ} (h : body s = .leave r) (n : ℕ) :
    run body (n + 1) s = some r := by
  simp only [run, h]

/-- A loop that goes through the states `f 0`, `f 1`, ... leaves from the last of them. -/
theorem run_path {f : ℕ → σ} {k n : ℕ} {r : ρ} (hagain : ∀ i < k, body (f i) = .again (f (i + 1)))
    (hleave : body (f k) = .leave r) (hn : k < n) : run body n (f 0) = some r := by
  induction k generalizing f n with
  | zero =>
    obtain ⟨n, rfl⟩ := Nat.exists_eq_add_of_lt hn
    exact run_leave hleave _
  | succ k ih =>
    obtain ⟨n, rfl⟩ : ∃ j, n = j + 1 := Nat.exists_eq_succ_of_ne_zero (by omega)
    rw [run_again (hagain 0 (Nat.succ_pos k))]
    exact ih (f := fun i => f (i + 1)) (fun i hi => hagain (i + 1) (Nat.succ_lt_succ hi)) hleave
      (Nat.lt_of_succ_lt_succ hn)

/-- The partial-correctness rule: an invariant of the rounds gives the exit condition. -/
theorem run_invariant (Inv : σ → Prop) (Post : ρ → Prop)
    (hagain : ∀ s t, Inv s → body s = .again t → Inv t)
    (hleave : ∀ s r, Inv s → body s = .leave r → Post r)
    {n : ℕ} {s : σ} {r : ρ} (hs : Inv s) (h : run body n s = some r) : Post r := by
  induction n generalizing s with
  | zero => simp [run] at h
  | succ n ih =>
    cases hb : body s with
    | again t =>
      rw [run_again hb] at h
      exact ih (hagain s t hs hb) h
    | leave q =>
      rw [run_leave hb] at h
      exact Option.some.inj h ▸ hleave s q hs hb

/-- Two budgets that are large enough give the same result. -/
theorem run_unique {m n : ℕ} {s : σ} {r q : ρ} (hr : run body m s = some r)
    (hq : run body n s = some q) : r = q := by
  induction m generalizing n s with
  | zero => cases hr
  | succ m ih =>
    cases n with
    | zero => cases hq
    | succ n =>
      cases hb : body s with
      | again t =>
        rw [run_again hb] at hr hq
        exact ih hr hq
      | leave p =>
        rw [run_leave hb] at hr hq
        exact Option.some.inj (hr.symm.trans hq)

/-- A set of states that only goes round never leaves, whatever the budget. -/
theorem run_never_leaves (Inv : σ → Prop)
    (hagain : ∀ s, Inv s → ∃ t, body s = .again t ∧ Inv t)
    (n : ℕ) {s : σ} (hs : Inv s) : run body n s = none := by
  induction n generalizing s with
  | zero => rfl
  | succ n ih =>
    obtain ⟨t, hb, ht⟩ := hagain s hs
    rw [run_again hb]
    exact ih ht

end Rules

section Rounds

variable {σ ρ : Type*} {body : σ → Iteration σ ρ}

/-- The states in which a loop goes round, one after the other, and the result it leaves with. -/
inductive Rounds (body : σ → Iteration σ ρ) : σ → List σ → ρ → Prop where
  | leave {s r} : body s = .leave r → Rounds body s [] r
  | again {s t l r} : body s = .again t → Rounds body t l r → Rounds body s (s :: l) r

theorem Rounds.run_eq {s : σ} {l : List σ} {r : ρ} (h : Rounds body s l r) {n : ℕ}
    (hn : l.length < n) : run body n s = some r := by
  induction h generalizing n with
  | leave hb =>
    obtain ⟨k, rfl⟩ : ∃ k, n = k + 1 := ⟨n - 1, by simp at hn; omega⟩
    exact run_leave hb k
  | again hb _ ih =>
    rw [List.length_cons] at hn
    obtain ⟨k, rfl⟩ : ∃ k, n = k + 1 := ⟨n - 1, by omega⟩
    rw [run_again hb]
    exact ih (by omega)

theorem rounds_of_measure (μ : σ → ℕ) (hμ : ∀ s t, body s = .again t → μ t < μ s) (s : σ) :
    ∃ l r, Rounds body s l r ∧ l.length ≤ μ s := by
  induction hn : μ s using Nat.strongRecOn generalizing s with
  | ind n ih =>
    cases hb : body s with
    | again t =>
      have hlt := hμ s t hb
      obtain ⟨l, r, hr, hlen⟩ := ih (μ t) (hn ▸ hlt) t rfl
      refine ⟨s :: l, r, .again hb hr, ?_⟩
      rw [List.length_cons]
      omega
    | leave r => exact ⟨[], r, .leave hb, Nat.zero_le n⟩

end Rounds

section Visited

variable {σ ρ : Type*} {body : σ → Iteration σ ρ}

/-- The states that a loop comes to, whether it ends or not. -/
inductive Visits (body : σ → Iteration σ ρ) (s : σ) : σ → Prop where
  | start : Visits body s s
  | again {t u : σ} : Visits body s t → body t = .again u → Visits body s u

theorem Visits.invariant (Inv : σ → Prop) (hagain : ∀ s t, Inv s → body s = .again t → Inv t)
    {s t : σ} (hs : Inv s) (h : Visits body s t) : Inv t := by
  induction h with
  | start => exact hs
  | again _ hbody ih => exact hagain _ _ ih hbody

theorem Visits.trans {s t u : σ} (h : Visits body s t) (h' : Visits body t u) :
    Visits body s u := by
  induction h' with
  | start => exact h
  | again _ hlast ih => exact .again ih hlast

theorem Visits.head {s t u : σ} (hbody : body s = .again t) (h : Visits body t u) :
    Visits body s u := .trans (.again .start hbody) h

theorem run_visits {n : ℕ} {s : σ} {r : ρ} (h : run body n s = some r) :
    ∃ t, Visits body s t ∧ body t = .leave r := by
  refine run_invariant (Visits body s) (fun r => ∃ t, Visits body s t ∧ body t = .leave r)
    (fun _ _ => .again) (fun t r ht hleave => ⟨t, ht, hleave⟩) .start h

/-- The rule for total correctness: the rounds keep the invariant and make a number smaller, or
leave with what is required. -/
theorem run_total (Inv : σ → Prop) (Post : ρ → Prop) (μ : σ → ℕ)
    (hround : ∀ s, Inv s → (∃ t, body s = .again t ∧ Inv t ∧ μ t < μ s) ∨
      ∃ r, body s = .leave r ∧ Post r)
    {n : ℕ} {s : σ} (hs : Inv s) (hn : μ s < n) : ∃ r, run body n s = some r ∧ Post r := by
  induction n generalizing s with
  | zero => exact absurd hn (Nat.not_lt_zero _)
  | succ n ih =>
    rcases hround s hs with ⟨t, hbody, ht, hlt⟩ | ⟨r, hbody, hr⟩
    · rw [run_again hbody]
      exact ih ht (by omega)
    · exact ⟨r, run_leave hbody n, hr⟩

end Visited

section Simulation

variable {σ τ ρ ρ' : Type*} {body : σ → Iteration σ ρ} {body' : τ → Iteration τ ρ'}

/-- Two rounds do the same: both go on in related states, or both leave with related results. -/
inductive Iteration.Rel (R : σ → τ → Prop) (Q : ρ → ρ' → Prop) :
    Iteration σ ρ → Iteration τ ρ' → Prop where
  | again {s t} : R s t → Rel R Q (.again s) (.again t)
  | leave {r q} : Q r q → Rel R Q (.leave r) (.leave q)

/-- Loops that go in step end together. -/
theorem run_simulation {R : σ → τ → Prop} {Q : ρ → ρ' → Prop}
    (hbody : ∀ s t, R s t → Iteration.Rel R Q (body s) (body' t)) (n : ℕ) {s : σ} {t : τ}
    (hs : R s t) : Option.Rel Q (run body n s) (run body' n t) := by
  induction n generalizing s t with
  | zero => exact .none
  | succ n ih =>
    have hround := hbody s t hs
    generalize hb : body s = x at hround
    generalize hb' : body' t = y at hround
    cases hround with
    | again hst =>
      rw [run_again hb, run_again hb']
      exact ih hst
    | leave hq =>
      rw [run_leave hb, run_leave hb']
      exact .some hq

end Simulation

section Scans

variable {α β ρ : Type*} {l : List α} {f g : α → Option ρ}

theorem findSome?_congr (h : ∀ x ∈ l, f x = g x) : l.findSome? f = l.findSome? g := by
  induction l with
  | nil => rfl
  | cons x l ih =>
    rw [List.findSome?_cons, List.findSome?_cons, h x List.mem_cons_self,
      ih fun y hy => h y (List.mem_cons_of_mem _ hy)]

theorem findSome?_flatMap (l : List β) (f : β → List α) (g : α → Option ρ) :
    (l.flatMap f).findSome? g = l.findSome? fun x => (f x).findSome? g := by
  induction l with
  | nil => rfl
  | cons x l ih =>
    rw [List.flatMap_cons, List.findSome?_append, ih, List.findSome?_cons]
    cases (f x).findSome? g <;> rfl

theorem findSome?_ite (P : α → Prop) [DecidablePred P] (f : α → ρ) (l : List α) :
    l.findSome? (fun x => if P x then some (f x) else none) = (l.find? P).map f := by
  induction l with
  | nil => rfl
  | cons x l ih =>
    by_cases hx : P x
    · simp only [List.findSome?_cons, List.find?_cons, hx, decide_true, if_true, Option.map_some]
    · simp only [List.findSome?_cons, List.find?_cons, hx, decide_false, if_false, ih]

theorem findSome?_unique {x : α} {r : ρ} (hx : x ∈ l) (hr : f x = some r)
    (h : ∀ y ∈ l, ∀ q, f y = some q → q = r) : l.findSome? f = some r := by
  cases hv : l.findSome? f with
  | none =>
    rw [List.findSome?_eq_none_iff.mp hv x hx] at hr
    cases hr
  | some q =>
    obtain ⟨y, hy, hq⟩ := List.exists_of_findSome?_eq_some hv
    rw [h y hy q hq]

theorem first_or_none (P : α → Prop) [DecidablePred P] (l : List α) : (∀ x ∈ l, ¬P x) ∨
    ∃ pre x post, l = pre ++ x :: post ∧ P x ∧ ∀ y ∈ pre, ¬P y := by
  cases hfind : l.find? fun x => P x with
  | none =>
    left
    intro x hx
    simpa using List.find?_eq_none.mp hfind x hx
  | some x =>
    obtain ⟨hx, pre, post, hsplit, hpre⟩ := List.find?_eq_some_iff_append.mp hfind
    exact .inr ⟨pre, x, post, hsplit, of_decide_eq_true hx, fun y hy => by simpa using hpre y hy⟩

theorem findSome?_range {f : ℕ → Option ρ} {n i : ℕ} {r : ρ} (hi : i < n) (hr : f i = some r)
    (hbefore : ∀ k < i, f k = none) : (List.range n).findSome? f = some r := by
  induction n with
  | zero => omega
  | succ n ih =>
    rw [List.range_succ, List.findSome?_append]
    by_cases hlt : i < n
    · rw [ih hlt]
      rfl
    · obtain rfl : i = n := by omega
      have hnone : (List.range i).findSome? f = none :=
        List.findSome?_eq_none_iff.mpr fun k hk => hbefore k (List.mem_range.mp hk)
      rw [hnone, Option.none_or, List.findSome?_singleton, hr]

end Scans

end WhileLoop
