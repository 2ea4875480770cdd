import SojebOS.WhileLoop

/-!
# Chains threaded by a successor function

`Linked next ends a l` says that following `next` from `a` visits exactly the list `l`
and then meets an end marker. The list is determined by its start and has no repetition,
so a chain that ends is acyclic.
-/
namespace LinkedChain

open WhileLoop

inductive Linked {α : Type*} (next : α → α) (ends : α → Prop) : α → List α → Prop where
  | nil {a} : ends a → Linked next ends a []
  | cons {a l} : ¬ ends a → Linked next ends (next a) l → Linked next ends a (a :: l)

section Chains

variable {α : Type*} {next next' : α → α} {ends : α → Prop}

theorem Linked.unique {a : α} {l l' : List α} (h : Linked next ends a l)
    (h' : Linked next ends a l') : l = l' := by
  induction h generalizing l' with
  | nil ha =>
    cases h' with
    | nil => rfl
    | cons hn _ => exact absurd ha hn
  | cons ha _ ih =>
    cases h' with
    | nil hn => exact absurd hn ha
    | cons _ h' => rw [ih h']

theorem Linked.eq_nil {a : α} {l : List α} (h : Linked next ends a l) (ha : ends a) : l = [] :=
  h.unique (.nil ha)

theorem Linked.head_mem {a : α} {l : List α} (h : Linked next ends a l) (ha : ¬ ends a) :
    a ∈ l := by
  cases h with
  | nil h => exact absurd h ha
  | cons => exact List.mem_cons_self

theorem Linked.not_ends {a b : α} {l : List α} (h : Linked next ends a l) (hb : b ∈ l) :
    ¬ ends b := by
  induction h with
  | nil => simp at hb
  | cons ha _ ih =>
    rcases List.mem_cons.mp hb with rfl | hb
    · exact ha
    · exact ih hb

theorem Linked.suffix {a b : α} {l : List α} (h : Linked next ends a l) (hb : b ∈ l) :
    ∃ pre suf, l = pre ++ b :: suf ∧ Linked next ends b (b :: suf) := by
  induction h with
  | nil => simp at hb
  | @cons a l ha h ih =>
    rcases List.mem_cons.mp hb with rfl | hb
    · exact ⟨[], l, rfl, .cons ha h⟩
    · obtain ⟨pre, suf, rfl, hs⟩ := ih hb
      exact ⟨a :: pre, suf, rfl, hs⟩

theorem Linked.nodup {a : α} {l : List α} (h : Linked next ends a l) : l.Nodup := by
  induction h with
  | nil => exact List.nodup_nil
  | @cons a l ha h ih =>
    refine List.nodup_cons.mpr ⟨fun hm => ?_, ih⟩
    obtain ⟨pre, suf, rfl, hs⟩ := h.suffix hm
    have hl := congrArg List.length ((Linked.cons ha h).unique hs)
    simp only [List.length_cons, List.length_append] at hl
    omega

theorem Linked.next_mem_or_ends {a b : α} {l : List α} (h : Linked next ends a l)
    (hb : b ∈ l) : next b ∈ l ∨ ends (next b) := by
  obtain ⟨pre, suf, rfl, hs⟩ := h.suffix hb
  cases hs with
  | cons _ hs =>
    cases hs with
    | nil he => exact .inr he
    | cons => exact .inl (by simp)

theorem Linked.congr {a : α} {l : List α} (h : Linked next ends a l)
    (hn : ∀ x ∈ l, next' x = next x) : Linked next' ends a l := by
  induction h with
  | nil ha => exact .nil ha
  | @cons a l ha _ ih =>
    refine .cons ha ?_
    rw [hn a List.mem_cons_self]
    exact ih fun x hx => hn x (List.mem_cons_of_mem _ hx)

theorem Linked.extend {a z c : α} {l : List α} (h : Linked next ends a (l ++ [z]))
    (hl : ∀ x ∈ l, next' x = next x) (hz : next' z = c) (hc : ¬ ends c)
    (he : ends (next' c)) : Linked next' ends a (l ++ [z] ++ [c]) := by
  induction l generalizing a with
  | nil =>
    subst hz
    cases h with
    | cons ha _ => exact .cons ha (.cons hc (.nil he))
  | cons x l ih =>
    cases h with
    | cons ha h =>
      refine .cons ha ?_
      rw [hl _ List.mem_cons_self]
      exact ih h fun y hy => hl y (List.mem_cons_of_mem _ hy)

end Chains

section Trails

variable {α : Type*} {next : α → α} {ends : α → Prop} [DecidablePred ends]

/-- The elements that a walk of at most `n` rounds comes to; the links may form a cycle. -/
def trail (next : α → α) (ends : α → Prop) [DecidablePred ends] : ℕ → α → List α
  | 0, _ => []
  | n + 1, a => if ends a then [] else a :: trail next ends n (next a)

theorem trail_ends {a : α} (ha : ends a) (n : ℕ) : trail next ends n a = [] := by
  cases n with
  | zero => rfl
  | succ n => exact if_pos ha

theorem trail_succ {a : α} (ha : ¬ ends a) (n : ℕ) :
    trail next ends (n + 1) a = a :: trail next ends n (next a) := if_neg ha

theorem Linked.trail_eq {a : α} {l : List α} (h : Linked next ends a l) {n : ℕ}
    (hn : l.length ≤ n) : trail next ends n a = l := by
  induction h generalizing n with
  | nil ha => exact trail_ends ha n
  | @cons a l ha _ ih =>
    rw [List.length_cons] at hn
    obtain ⟨k, rfl⟩ : ∃ k, n = k + 1 := ⟨n - 1, by omega⟩
    rw [trail_succ ha, ih (by omega)]

end Trails

section Walks

variable {α ρ : Type*} {next : α → α} {ends : α → Prop} [DecidablePred ends]

/-- One round of a walk: stop at an end marker, leave at the first hit, else follow the link. -/
def walkBody (next : α → α) (ends : α → Prop) [DecidablePred ends] (visit : α → Option ρ)
    (a : α) : Iteration α (Option ρ) :=
  if ends a then .leave none
  else
    match visit a with
    | some r => .leave (some r)
    | none => .again (next a)

theorem walk_eq_findSome (visit : α → Option ρ) {a : α} {l : List α}
    (h : Linked next ends a l) {n : ℕ} (hn : l.length < n) :
    run (walkBody next ends visit) n a = some (l.findSome? visit) := by
  induction h generalizing n with
  | nil ha =>
    obtain ⟨k, rfl⟩ : ∃ k, n = k + 1 := ⟨n - 1, by simp at hn; omega⟩
    exact run_leave (by simp [walkBody, ha]) k
  | @cons a l ha _ ih =>
    simp only [List.length_cons] at hn
    obtain ⟨k, rfl⟩ : ∃ k, n = k + 1 := ⟨n - 1, by omega⟩
    cases hv : visit a with
    | some r =>
      rw [run_leave (r := some r) (by simp [walkBody, ha, hv])]
      simp [hv]
    | none =>
      rw [run_again (t := next a) (by simp [walkBody, ha, hv]), ih (by omega)]
      simp [hv]

omit [DecidablePred ends] in
/-- A walk that would run past the end of a chain still finds what the chain has. -/
theorem walk_hit {ends' : α → Prop} [DecidablePred ends'] (visit : α → Option ρ) {a : α}
    {l : List α} (h : Linked next ends a l) (hends : ∀ x ∈ l, ¬ ends' x) {r : ρ}
    (hv : l.findSome? visit = some r) {n : ℕ} (hn : l.length ≤ n) :
    run (walkBody next ends' visit) n a = some (some r) := by
  induction h generalizing n with
  | nil => cases hv
  | @cons a l _ _ ih =>
    have ha := hends a List.mem_cons_self
    rw [List.length_cons] at hn
    obtain ⟨k, rfl⟩ : ∃ k, n = k + 1 := ⟨n - 1, by omega⟩
    rw [List.findSome?_cons] at hv
    cases hva : visit a with
    | some q =>
      rw [hva] at hv
      cases hv
      exact run_leave (by simp [walkBody, ha, hva]) k
    | none =>
      rw [hva] at hv
      rw [run_again (t := next a) (by simp [walkBody, ha, hva])]
      exact ih (fun x hx => hends x (List.mem_cons_of_mem a hx)) hv (by omega)

theorem walk_some (visit : α → Option ρ) {S : α → Prop}
    (hnext : ∀ b, S b → ¬ ends b → S (next b)) {r : ρ} {n : ℕ} {a : α} (ha : S a)
    (h : run (walkBody next ends visit) n a = some (some r)) :
    ∃ b, S b ∧ ¬ ends b ∧ visit b = some r := by
  refine run_invariant S (fun q => ∀ r, q = some r → ∃ b, S b ∧ ¬ ends b ∧ visit b = some r)
    ?_ ?_ ha h r rfl
  · intro b c hb hround
    unfold walkBody at hround
    split at hround
    · cases hround
    · rename_i hon
      split at hround <;> cases hround
      exact hnext b hb hon
  · intro b q hb hround r hq
    subst hq
    unfold walkBody at hround
    split at hround
    · cases hround
    · rename_i hon
      split at hround
      · rename_i hv
        cases hround
        exact ⟨b, hb, hon, hv⟩
      · cases hround

end Walks

end LinkedChain
