import SojebOS.GrowableVector

/-!
# How much room a vector has

As long as no size computation wraps and no vector without capacity grows, the elements
of a vector fit in its block. Doubling a capacity of 0, which `vector_free` and a failed
`vector_init` leave, gives 0 again.
-/
namespace VectorRoom

open ByteMemory MachineWord GrowableVector
open KernelHeap (align)

def ClaimsRoom (s : State) : Prop :=
  s.vec.data ≠ 0 → max s.vec.size s.vec.capacity * s.vec.elementSize ≤ s.usable s.vec.data

def pushTarget (s : State) (e : Event) : ℕ := target { (next s e).vec with size := s.vec.size }

def WritesInside (s : State) (e : Event) : Prop :=
  ∀ element reply, e = .pushBack element reply → (perform s e).2.2 = true →
    (next s e).vec.data ≠ 0 ∧ (next s e).vec.data ≤ pushTarget s e ∧
      pushTarget s e + s.vec.elementSize ≤
        (next s e).vec.data + (next s e).usable (next s e).vec.data

/-- From a vector of zeros, by any calls. -/
inductive Run : State → Prop where
  | start (m : Bytes) (usable : ℕ → ℕ) : Run ⟨m, ⟨0, 0, 0, 0⟩, usable⟩
  | step {s : State} {e : Event} : Run s → Enabled s e → Run (next s e)

/-- The sizes of an allocation do not wrap, rounding up included, and a vector that grows
has a capacity to double. -/
def Safe (s : State) : Event → Prop
  | .init initialCapacity elementSize reply =>
    elementSize = 0 ∨ reply.kmalloc = none ∨
      firstCapacity initialCapacity * elementSize ≤ 2 ^ 32 - 8
  | .pushBack element reply =>
    element = 0 ∨ s.vec.size < s.vec.capacity ∨ s.vec.elementSize = 0 ∨ reply.kmalloc = none ∨
      0 < s.vec.capacity ∧ s.vec.capacity * 2 * s.vec.elementSize ≤ 2 ^ 32 - 8
  | _ => True

inductive SafeRun : State → Prop where
  | start (m : Bytes) (usable : ℕ → ℕ) : SafeRun ⟨m, ⟨0, 0, 0, 0⟩, usable⟩
  | step {s : State} {e : Event} : SafeRun s → Enabled s e → Safe s e → SafeRun (next s e)

/-- A null pointer comes with no capacity, and elements of some size fit in the block. -/
structure Invariant (s : State) : Prop where
  null : s.vec.data = 0 → s.vec.size = 0 ∧ s.vec.capacity = 0
  room : s.vec.data ≠ 0 → s.vec.elementSize ≠ 0 →
    s.vec.size ≤ s.vec.capacity ∧ s.vec.capacity * s.vec.elementSize ≤ s.usable s.vec.data
  word : s.vec.data < 2 ^ 32
  top : s.vec.data ≠ 0 → s.vec.data + s.usable s.vec.data ≤ 2 ^ 32

section Steps

variable {s : State} {e : Event}

theorem Invariant.claimsRoom (h : Invariant s) : ClaimsRoom s := by
  intro hd
  by_cases hes : s.vec.elementSize = 0
  · rw [hes, Nat.mul_zero]
    exact Nat.zero_le _
  · obtain ⟨hsize, hroom⟩ := h.room hd hes
    rw [max_eq_right hsize]
    exact hroom

theorem room_of_served {n k : ℕ} {a : Answer} (hk : k ≤ 2 ^ 32 - 8) (hn : n = u32 k)
    (ha : Served n a) : k ≤ a.usable := by
  have hnk : n = k := hn.trans (u32_of_lt (by omega))
  have halign := align_ge (n := n) (by omega)
  have := ha.room
  omega

/-- A fresh block in which the capacity fits restores the invariant. -/
theorem invariant_fresh {m : Bytes} {n size capacity elementSize : ℕ} {usable : ℕ → ℕ}
    {a : Answer} (ha : Served n a) (hroom : elementSize ≠ 0 →
      size ≤ capacity ∧ capacity * elementSize ≤ a.usable) :
    Invariant ⟨m, ⟨a.ptr, size, capacity, elementSize⟩, Function.update usable a.ptr a.usable⟩ := by
  constructor
  · intro h0
    exact absurd h0 ha.nonNull
  · intro _ hes
    simpa only [Function.update_self] using hroom hes
  · exact ha.word
  · intro _
    simpa only [Function.update_self] using ha.top

theorem init_preserves {c n : ℕ} {reply : Reply} (h : Invariant s)
    (he : Enabled s (.init c n reply)) (hs : Safe s (.init c n reply)) :
    Invariant (next s (.init c n reply)) := by
  by_cases hn : n = 0
  · simpa [next, perform, vectorInit, request, recordBlock, hn] using h
  cases ha : reply.kmalloc with
  | none =>
    simp only [next, perform, vectorInit, request, answer, recordBlock, hn, ha, ↓reduceIte]
    exact ⟨fun _ => ⟨rfl, rfl⟩, fun h0 => absurd rfl h0, by norm_num, fun h0 => absurd rfl h0⟩
  | some a =>
    have hserved := he.served (u32 (firstCapacity c * n)) a (by simp [request, hn]) ha
    have hsize : firstCapacity c * n ≤ 2 ^ 32 - 8 := by simpa [Safe, hn, ha] using hs
    simp only [next, perform, vectorInit, request, answer, recordBlock, hn, ha, ↓reduceIte]
    exact invariant_fresh hserved fun _ => ⟨Nat.zero_le _, room_of_served hsize rfl hserved⟩

/-- What a push leaves when it is not refused: the vector before its size went up. -/
structure Pushed (s : State) (element : ℕ) (reply : Reply) (vec : Vec) : Prop where
  next_vec : (next s (.pushBack element reply)).vec = { vec with size := u32 (s.vec.size + 1) }
  size : vec.size = s.vec.size
  elementSize : vec.elementSize = s.vec.elementSize
  nonNull : vec.data ≠ 0
  word : vec.data < 2 ^ 32
  top : vec.data + (next s (.pushBack element reply)).usable vec.data ≤ 2 ^ 32
  room : vec.elementSize ≠ 0 → s.vec.size + 1 ≤ vec.capacity ∧
    vec.capacity * vec.elementSize ≤ (next s (.pushBack element reply)).usable vec.data

theorem push_cases {element : ℕ} {reply : Reply} (h : Invariant s)
    (he : Enabled s (.pushBack element reply)) (hs : Safe s (.pushBack element reply)) :
    ((perform s (.pushBack element reply)).2.2 = false ∧
      (next s (.pushBack element reply)).vec = s.vec ∧
      (next s (.pushBack element reply)).usable = s.usable) ∨
    ∃ vec, Pushed s element reply vec := by
  have hout := pushBack_outcome s.mem s.vec element reply
  have hperform : perform s (.pushBack element reply) =
      vectorPushBack s.mem s.vec element reply := rfl
  have hvec : (next s (.pushBack element reply)).vec =
      (vectorPushBack s.mem s.vec element reply).2.1 := rfl
  have husable : (next s (.pushBack element reply)).usable =
      recordBlock s.usable (request s.vec (.pushBack element reply)) reply.kmalloc := rfl
  generalize vectorPushBack s.mem s.vec element reply = result at hout hperform hvec
  cases hout with
  | refused hwhy =>
    left
    refine ⟨by rw [hperform], hvec, ?_⟩
    rcases hwhy with h0 | ⟨-, hnone⟩
    · rw [husable]
      simp [request, h0, recordBlock]
    · rw [husable, hnone]
      cases request s.vec (.pushBack element reply) <;> rfl
  | fits h0 hlt =>
    right
    have hnull : s.vec.data ≠ 0 := by
      intro hd
      have := (h.null hd).2
      omega
    have hsame : (next s (.pushBack element reply)).usable = s.usable := by
      simp [husable, request, Nat.not_le.mpr hlt, recordBlock]
    refine ⟨s.vec, hvec, rfl, rfl, hnull, h.word, ?_, ?_⟩
    · rw [hsame]
      exact h.top hnull
    · intro hes
      rw [hsame]
      exact ⟨hlt, (h.room hnull hes).2⟩
  | @grows a h0 hfull ha =>
    right
    have hrequest : request s.vec (.pushBack element reply) =
        some (u32 (u32 (s.vec.capacity * 2) * s.vec.elementSize)) := by
      simp [request, h0, hfull]
    have hserved := he.served _ a hrequest ha
    rw [hrequest, ha] at husable
    refine ⟨{ s.vec with data := a.ptr, capacity := u32 (s.vec.capacity * 2) }, hvec, rfl, rfl,
      hserved.nonNull, hserved.word, ?_, ?_⟩
    · simpa [husable, recordBlock] using hserved.top
    · intro hes
      simp only at hes
      have hnotlt : ¬ s.vec.size < s.vec.capacity := by omega
      obtain ⟨hpos, hfits⟩ : 0 < s.vec.capacity ∧
          s.vec.capacity * 2 * s.vec.elementSize ≤ 2 ^ 32 - 8 := by
        simpa [Safe, h0, hnotlt, hes, ha] using hs
      have hdouble : s.vec.capacity * 2 ≤ s.vec.capacity * 2 * s.vec.elementSize :=
        Nat.le_mul_of_pos_right _ (Nat.pos_of_ne_zero hes)
      have hu : u32 (s.vec.capacity * 2) = s.vec.capacity * 2 := u32_of_lt (by omega)
      have hnull : s.vec.data ≠ 0 := fun hd => by
        have := (h.null hd).2
        omega
      have hsize := (h.room hnull hes).1
      rw [hu] at hserved ⊢
      simp only [husable, recordBlock, Function.update_self]
      exact ⟨by omega, room_of_served hfits rfl hserved⟩

theorem Pushed.invariant {element : ℕ} {reply : Reply} {vec : Vec}
    (h : Pushed s element reply vec) : Invariant (next s (.pushBack element reply)) := by
  have hnext := h.next_vec
  constructor
  · intro hd
    rw [hnext] at hd
    exact absurd hd h.nonNull
  · intro _ hes
    rw [hnext] at hes ⊢
    obtain ⟨hsize, hroom⟩ := h.room hes
    have hle : u32 (s.vec.size + 1) ≤ s.vec.size + 1 := Nat.mod_le _ _
    exact ⟨hle.trans hsize, hroom⟩
  · rw [hnext]
    exact h.word
  · intro _
    rw [hnext]
    exact h.top

theorem Pushed.writesInside {element : ℕ} {reply : Reply} {vec : Vec}
    (h : Pushed s element reply vec) : WritesInside s (.pushBack element reply) := by
  intro element' reply' he _
  have htarget : pushTarget s (.pushBack element reply) = target vec := by
    rw [pushTarget, h.next_vec, ← h.size]
  have hdata : (next s (.pushBack element reply)).vec.data = vec.data := by
    rw [h.next_vec]
  rw [htarget, hdata, ← h.elementSize]
  have hword := h.word
  have htop := h.top
  by_cases hes : vec.elementSize = 0
  · have ht : target vec = vec.data := by
      have h0 : u32 0 = 0 := rfl
      rw [target, hes, Nat.mul_zero, h0, Nat.add_zero, u32_of_lt hword]
    exact ⟨h.nonNull, by omega, by omega⟩
  · obtain ⟨hsize, hroom⟩ := h.room hes
    rw [← h.size] at hsize
    have hslot : (vec.size + 1) * vec.elementSize ≤ vec.capacity * vec.elementSize :=
      Nat.mul_le_mul_right _ hsize
    have hsplit : (vec.size + 1) * vec.elementSize =
        vec.size * vec.elementSize + vec.elementSize := Nat.succ_mul _ _
    have hnull := h.nonNull
    have hoff : u32 (vec.size * vec.elementSize) = vec.size * vec.elementSize :=
      u32_of_lt (by omega)
    have ht : target vec = vec.data + vec.size * vec.elementSize := by
      rw [target, hoff, u32_of_lt (by omega)]
    exact ⟨hnull, by omega, by omega⟩

theorem step_preserves_invariant (h : Invariant s) (he : Enabled s e) (hs : Safe s e) :
    Invariant (next s e) := by
  cases e with
  | init c n reply => exact init_preserves h he hs
  | pushBack element reply =>
    rcases push_cases h he hs with ⟨-, hvec, husable⟩ | ⟨vec, hpushed⟩
    · constructor
      · rw [hvec]
        exact h.null
      · rw [hvec, husable]
        exact h.room
      · rw [hvec]
        exact h.word
      · rw [hvec, husable]
        exact h.top
    · exact hpushed.invariant
  | popBack =>
    by_cases h0 : s.vec.size = 0
    · simpa [next, perform, vectorPopBack, h0, request, recordBlock] using h
    · simp only [next, perform, vectorPopBack, h0, ↓reduceIte, request, answer, recordBlock]
      refine ⟨fun hd => absurd (h.null hd).1 h0, fun hd hes => ?_, h.word, h.top⟩
      obtain ⟨hsize, hroom⟩ := h.room hd hes
      exact ⟨by simp only; omega, hroom⟩
  | clear =>
    refine ⟨fun hd => ⟨rfl, (h.null hd).2⟩, fun hd hes => ?_, h.word, h.top⟩
    exact ⟨Nat.zero_le _, (h.room hd hes).2⟩
  | free reply =>
    by_cases h0 : s.vec.data = 0
    · simpa [next, perform, vectorFree, h0, request, recordBlock] using h
    · simp only [next, perform, vectorFree, ne_eq, h0, not_false_eq_true, ↓reduceIte, request,
        answer, recordBlock]
      exact ⟨fun _ => ⟨rfl, rfl⟩, fun hd => absurd rfl hd, by norm_num, fun hd => absurd rfl hd⟩
  | get index => exact ⟨h.null, h.room, h.word, h.top⟩
  | other m => exact ⟨h.null, h.room, h.word, h.top⟩

end Steps

section Runs

variable {s : State} {e : Event}

theorem safeRun_invariant (h : SafeRun s) : Invariant s := by
  induction h with
  | start => exact ⟨fun _ => ⟨rfl, rfl⟩, fun h0 => absurd rfl h0, by norm_num,
      fun h0 => absurd rfl h0⟩
  | step _ he hs ih => exact step_preserves_invariant ih he hs

/-- In a run whose steps are safe the vector never claims more room than it has, and
every push that returns 1 writes inside the block. -/
theorem safeRun_room (h : SafeRun s) :
    ClaimsRoom s ∧ ∀ e, Enabled s e → Safe s e → WritesInside s e := by
  have hinv := safeRun_invariant h
  refine ⟨hinv.claimsRoom, ?_⟩
  intro e he hs element reply hpush hok
  subst hpush
  rcases push_cases hinv he hs with ⟨hfalse, -, -⟩ | ⟨vec, hpushed⟩
  · rw [hfalse] at hok
    cases hok
  · exact hpushed.writesInside element reply rfl hok

/-- A reply of `kmalloc` with a block at address 4096. -/
def blockAt4096 (usable : ℕ) : Reply := ⟨some ⟨4096, usable, fun _ => 0⟩, id⟩

theorem blockAt4096_enabled {n usable : ℕ} (hu : usable ≤ 2 ^ 31)
    (hwords : ∀ c k reply, e = .init c k reply → c < 2 ^ 32 ∧ k < 2 ^ 32)
    (hreq : request s.vec e = some n) (hans : answer e = (blockAt4096 usable).kmalloc)
    (hroom : align n ≤ usable) : Enabled s e := by
  refine ⟨hwords, ?_⟩
  intro n' a hn' ha
  obtain rfl : n = n' := Option.some.inj (hreq.symm.trans hn')
  obtain rfl : ⟨4096, usable, fun _ => 0⟩ = a := Option.some.inj (hans.symm.trans ha)
  exact ⟨by norm_num, by norm_num, hroom, by simp only; omega⟩

def zeroVector : State := ⟨fun _ => 0, ⟨0, 0, 0, 0⟩, fun _ => 0⟩

/-- 2^30 elements of 4 bytes, for which `kmalloc` is asked for 0 bytes. -/
def wrappedVector : State := next zeroVector (.init (2 ^ 30) 4 (blockAt4096 0))

def freedVector : State :=
  next (next zeroVector (.init 4 4 (blockAt4096 16))) (.free (blockAt4096 16))

/-- A push after `vector_free`, for which `kmalloc` is asked for 0 bytes. -/
def refilledVector : State := next freedVector (.pushBack 8192 (blockAt4096 0))

theorem wrappedVector_run : Run wrappedVector := by
  refine .step (.start _ _) (blockAt4096_enabled (n := 0) (by norm_num) ?_ rfl rfl (by decide))
  rintro c k reply ⟨⟩
  norm_num

theorem refilledVector_run : Run refilledVector := by
  have hinit : Run (next zeroVector (.init 4 4 (blockAt4096 16))) := by
    refine .step (.start _ _) (blockAt4096_enabled (n := 16) (by norm_num) ?_ rfl rfl (by decide))
    rintro c k reply ⟨⟩
    norm_num
  have hfreed : Run freedVector := by
    refine .step hinit ⟨?_, ?_⟩
    · intro c k reply he
      cases he
    · intro n a hn
      cases hn
  refine .step hfreed (blockAt4096_enabled (n := 0) (by norm_num) ?_ rfl rfl (by decide))
  intro c k reply he
  cases he

theorem room_claimed_in_vain :
    ¬ (∀ s, Run s → ClaimsRoom s ∧ ∀ e, Enabled s e → WritesInside s e) ∧
    (Run wrappedVector ∧ ¬ ClaimsRoom wrappedVector) ∧
    (Run refilledVector ∧ ¬ ClaimsRoom refilledVector) := by
  have hwrapped : ¬ ClaimsRoom wrappedVector := by
    intro h
    have hroom := h (by decide)
    revert hroom
    decide
  have hrefilled : ¬ ClaimsRoom refilledVector := by
    intro h
    have hroom := h (by decide)
    revert hroom
    decide
  refine ⟨fun h => ?_, ⟨wrappedVector_run, hwrapped⟩, refilledVector_run, hrefilled⟩
  exact hrefilled (h _ refilledVector_run).1

theorem safeRun_room_grown : ClaimsRoom (next zeroVector (.init 1 8 (blockAt4096 8))) ∧
    ∀ e, Enabled (next zeroVector (.init 1 8 (blockAt4096 8))) e →
      Safe (next zeroVector (.init 1 8 (blockAt4096 8))) e →
      WritesInside (next zeroVector (.init 1 8 (blockAt4096 8))) e := by
  refine safeRun_room (.step (.start _ _) (blockAt4096_enabled (n := 8) (by norm_num) ?_ rfl rfl
    (by decide)) ?_)
  · rintro c k reply ⟨⟩
    norm_num
  · simp [Safe, firstCapacity]

end Runs

end VectorRoom
