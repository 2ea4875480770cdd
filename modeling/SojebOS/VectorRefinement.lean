import SojebOS.VectorRoom
import SojebOS.FirstFitUsed
import SojebOS.KernelHeapFrame

/-!
# A vector is a list

The bytes of the elements, in order, are the list that the calls build. Growth copies
them to a block apart from the old one, and a call that fails changes nothing.
-/
namespace VectorRefinement

open ByteMemory MachineWord FirstFit FirstFitUsed GrowableVector
open KernelHeap (Heap align memcpy kmalloc kfree sizeField)
open KernelHeapRefinement KernelHeapOutcomes KernelHeapFrame

def bytesAt (m : Bytes) (a n : ℕ) : List UInt8 := (List.range n).map fun j => m (a + j)

def contents (m : Bytes) (vec : Vec) : List (List UInt8) :=
  (List.range vec.size).map fun i => bytesAt m (vec.data + i * vec.elementSize) vec.elementSize

section Contents

variable {m m' : Bytes} {vec vec' : Vec} {a a' n : ℕ}

theorem bytesAt_congr (h : ∀ j < n, m' (a' + j) = m (a + j)) : bytesAt m' a' n = bytesAt m a n := by
  apply List.map_congr_left
  intro j hj
  exact h j (List.mem_range.mp hj)

theorem slot_lt {i j size width : ℕ} (hi : i < size) (hj : j < width) :
    i * width + j < size * width := by
  have hslot : (i + 1) * width ≤ size * width := Nat.mul_le_mul_right _ hi
  rw [Nat.succ_mul] at hslot
  omega

theorem contents_congr (hsize : vec'.size = vec.size)
    (hwidth : vec'.elementSize = vec.elementSize)
    (h : ∀ x < vec.size * vec.elementSize, m' (vec'.data + x) = m (vec.data + x)) :
    contents m' vec' = contents m vec := by
  unfold contents
  rw [hsize, hwidth]
  apply List.map_congr_left
  intro i hi
  apply bytesAt_congr
  intro j hj
  rw [Nat.add_assoc, Nat.add_assoc]
  exact h _ (slot_lt (List.mem_range.mp hi) hj)

theorem contents_succ {size : ℕ} (hsize : vec.size = size + 1) :
    contents m vec = contents m { vec with size := size } ++
      [bytesAt m (vec.data + size * vec.elementSize) vec.elementSize] := by
  simp only [contents, hsize, List.range_succ, List.map_append, List.map_cons, List.map_nil]

theorem contents_length : (contents m vec).length = vec.size := by
  simp [contents]

theorem contents_getElem {i : ℕ} (hi : i < vec.size) : (contents m vec)[i]? =
    some (bytesAt m (vec.data + i * vec.elementSize) vec.elementSize) := by
  simp [contents, hi]

end Contents

/-- The heap interval: at most 2^30 bytes. -/
structure SmallHeap (lo hi : ℕ) : Prop where
  top : hi ≤ 2 ^ 32
  length : hi ≤ lo + 2 ^ 30

/-- The block `a` is handed out apart from the vector's and from the element that is
pushed, and allocating and freeing change none of the bytes that are still wanted. -/
structure Fresh (lo hi : ℕ) (s : State) (element : ℕ) (reply : Reply) (a : Answer) : Prop where
  low : lo ≤ a.ptr
  high : a.ptr + a.usable ≤ hi
  apart : a.ptr + a.usable ≤ s.vec.data ∨
    s.vec.data + s.usable s.vec.data ≤ a.ptr
  element_apart : a.ptr + a.usable ≤ element ∨ element + s.vec.elementSize ≤ a.ptr
  kmalloc_keeps : ∀ x, s.vec.data ≤ x ∧ x < s.vec.data + s.usable s.vec.data ∨
    element ≤ x ∧ x < element + s.vec.elementSize → a.mem x = s.mem x
  kfree_keeps : ∀ n ≤ a.usable, ∀ x, a.ptr ≤ x ∧ x < a.ptr + a.usable ∨
      element ≤ x ∧ x < element + s.vec.elementSize →
    reply.kfree (memcpy a.mem a.ptr s.vec.data n) x = memcpy a.mem a.ptr s.vec.data n x

/-- The calls with an element that is not in the slot it is copied to. The
rest of the kernel leaves the block alone. -/
def Admissible (lo hi : ℕ) (s : State) : Event → Prop
  | .pushBack element reply => element ≠ 0 → element + s.vec.elementSize ≤ 2 ^ 32 ∧
    (s.vec.size < s.vec.capacity →
      element + s.vec.elementSize ≤ target s.vec ∨ target s.vec + s.vec.elementSize ≤ element) ∧
    ∀ a, s.vec.capacity ≤ s.vec.size → reply.kmalloc = some a → Fresh lo hi s element reply a
  | .popBack => True
  | .clear => True
  | .get _ => True
  | .other m => ∀ x, s.vec.data ≤ x → x < s.vec.data + s.usable s.vec.data → m x = s.mem x
  | .init _ _ _ => False
  | .free _ => False

def listNext (s : State) (xs : List (List UInt8)) : Event → List (List UInt8)
  | .pushBack element reply =>
    if (perform s (.pushBack element reply)).2.2 = true then
      xs ++ [bytesAt s.mem element s.vec.elementSize]
    else xs
  | .popBack => xs.dropLast
  | .clear => []
  | _ => xs

/-- After an initialisation that succeeded, any admissible calls. -/
inductive Run (lo hi : ℕ) : State → List (List UInt8) → Prop where
  | init {s : State} {c n : ℕ} {reply : Reply} {a : Answer} : Enabled s (.init c n reply) →
      0 < n → firstCapacity c * n ≤ 2 ^ 30 → reply.kmalloc = some a → lo ≤ a.ptr →
      a.ptr + a.usable ≤ hi → Run lo hi (next s (.init c n reply)) []
  | step {s : State} {xs : List (List UInt8)} {e : Event} : Run lo hi s xs → Enabled s e →
      Admissible lo hi s e → Run lo hi (next s e) (listNext s xs e)

structure Refines (s : State) (xs : List (List UInt8)) : Prop where
  represents : contents s.mem s.vec = xs
  size : s.vec.size = xs.length
  bounded : s.vec.size ≤ s.vec.capacity
  get : ∀ i < s.vec.size, vectorGet s.vec i ≠ 0 ∧
    xs[i]? = some (bytesAt s.mem (vectorGet s.vec i) s.vec.elementSize)
  get_null : ∀ i, s.vec.size ≤ i → vectorGet s.vec i = 0
  refused : ∀ element reply, (perform s (.pushBack element reply)).2.2 = false →
    perform s (.pushBack element reply) = (s.mem, s.vec, false)

/-- The elements fit in the block, and the block lies in the heap. -/
structure Invariant (lo hi : ℕ) (s : State) (xs : List (List UInt8)) : Prop where
  represents : contents s.mem s.vec = xs
  nonNull : s.vec.data ≠ 0
  width : 0 < s.vec.elementSize
  low : lo ≤ s.vec.data
  high : s.vec.data + s.usable s.vec.data ≤ hi
  size : s.vec.size ≤ s.vec.capacity
  capacity : 0 < s.vec.capacity
  room : s.vec.capacity * s.vec.elementSize ≤ s.usable s.vec.data

section Steps

variable {lo hi : ℕ} {s : State} {xs : List (List UInt8)} {e : Event}

theorem Invariant.bounds (hh : SmallHeap lo hi) (h : Invariant lo hi s xs) :
    s.vec.size * s.vec.elementSize ≤ s.vec.capacity * s.vec.elementSize ∧
    s.vec.capacity * s.vec.elementSize ≤ 2 ^ 30 ∧ s.vec.capacity ≤ 2 ^ 30 ∧
    s.vec.data + s.vec.capacity * s.vec.elementSize ≤ 2 ^ 32 := by
  have hsize : s.vec.size * s.vec.elementSize ≤ s.vec.capacity * s.vec.elementSize :=
    Nat.mul_le_mul_right _ h.size
  have hcap : s.vec.capacity ≤ s.vec.capacity * s.vec.elementSize :=
    Nat.le_mul_of_pos_right _ h.width
  have := h.room
  have := h.low
  have := h.high
  have := hh.top
  have := hh.length
  omega

theorem Invariant.slot (hh : SmallHeap lo hi) (h : Invariant lo hi s xs) {i : ℕ}
    (hi : i < s.vec.capacity) :
    u32 (s.vec.data + u32 (i * s.vec.elementSize)) = s.vec.data + i * s.vec.elementSize := by
  obtain ⟨-, hroom, -, htop⟩ := h.bounds hh
  have hlt := slot_lt hi h.width
  have hoff : u32 (i * s.vec.elementSize) = i * s.vec.elementSize := u32_of_lt (by omega)
  rw [hoff, u32_of_lt (by omega)]

theorem Invariant.refines (hh : SmallHeap lo hi) (h : Invariant lo hi s xs) : Refines s xs := by
  constructor
  · exact h.represents
  · rw [← h.represents, contents_length]
  · exact h.size
  · intro i hi
    have hget : vectorGet s.vec i = s.vec.data + i * s.vec.elementSize := by
      rw [vectorGet, if_neg (by omega), h.slot hh (lt_of_lt_of_le hi h.size)]
    have hnull := h.nonNull
    rw [hget, ← h.represents]
    exact ⟨by omega, contents_getElem hi⟩
  · intro i hi
    rw [vectorGet, if_pos hi]
  · intro element reply hfalse
    have hout := pushBack_outcome s.mem s.vec element reply
    simp only [perform] at hfalse ⊢
    generalize vectorPushBack s.mem s.vec element reply = result at hout hfalse ⊢
    cases hout with
    | refused => rfl
    | fits => cases hfalse
    | grows => cases hfalse

theorem contents_store {m : Bytes} {vec : Vec} {element t : ℕ}
    (ht : t = vec.data + vec.size * vec.elementSize) (htop : t + vec.elementSize ≤ 2 ^ 32)
    (helement : element + vec.elementSize ≤ 2 ^ 32)
    (hapart : element + vec.elementSize ≤ t ∨ t + vec.elementSize ≤ element) :
    contents (memcpy m t element vec.elementSize) { vec with size := vec.size + 1 } =
      contents m vec ++ [bytesAt m element vec.elementSize] := by
  rw [contents_succ rfl]
  congr 1
  · apply contents_congr rfl rfl
    intro x hx
    simp only at hx
    exact memcpy_outside _ htop (by simp only; omega)
  · congr 1
    apply bytesAt_congr
    intro j hj
    rw [← ht]
    exact memcpy_inside _ htop helement hapart hj

/-- Growth brings the elements to the new block and leaves the pushed one alone. -/
theorem moved_spec (hh : SmallHeap lo hi) (h : Invariant lo hi s xs) {element : ℕ} {reply : Reply}
    {a : Answer} (hfull : s.vec.capacity ≤ s.vec.size) (hf : Fresh lo hi s element reply a)
    (hroom : s.vec.size * s.vec.elementSize ≤ a.usable) :
    (∀ x < s.vec.size * s.vec.elementSize,
      moved s.mem s.vec reply a (a.ptr + x) = s.mem (s.vec.data + x)) ∧
    ∀ x, element ≤ x → x < element + s.vec.elementSize →
      moved s.mem s.vec reply a x = s.mem x := by
  obtain ⟨hsize, hcap, hcap', htop⟩ := h.bounds hh
  have hpos := h.capacity
  have heq : s.vec.size = s.vec.capacity := le_antisymm h.size hfull
  have hdouble : u32 (s.vec.capacity * 2) = s.vec.capacity * 2 := u32_of_lt (by omega)
  have hmoved : moved s.mem s.vec reply a = reply.kfree
      (memcpy a.mem a.ptr s.vec.data (s.vec.size * s.vec.elementSize)) := by
    have hlt : s.vec.size < s.vec.capacity * 2 := by omega
    have hcopied : s.vec.data ≠ 0 ∧ 0 < s.vec.size := ⟨h.nonNull, by omega⟩
    simp only [moved, vectorResize, hdouble, if_pos hcopied, if_pos hlt,
      u32_of_lt (by omega : s.vec.size * s.vec.elementSize < 2 ^ 32)]
  have hblock := h.room
  have htop' := hh.top
  have hhigh := hf.high
  have hdata := h.high
  rw [hmoved]
  constructor
  · intro x hx
    rw [hf.kfree_keeps _ hroom _ (.inl (by omega)),
      memcpy_inside _ (by omega) (by omega) (by have := hf.apart; omega) hx]
    exact hf.kmalloc_keeps _ (.inl (by omega))
  · intro x h1 h2
    rw [hf.kfree_keeps _ hroom _ (.inr ⟨h1, h2⟩),
      memcpy_outside _ (by omega) (by have := hf.element_apart; omega)]
    exact hf.kmalloc_keeps _ (.inr ⟨h1, h2⟩)

theorem push_fits (hh : SmallHeap lo hi) (h : Invariant lo hi s xs) {element : ℕ}
    (hlt : s.vec.size < s.vec.capacity) (helement : element + s.vec.elementSize ≤ 2 ^ 32)
    (hapart : element + s.vec.elementSize ≤ target s.vec ∨
      target s.vec + s.vec.elementSize ≤ element) :
    Invariant lo hi
      ⟨(storeElement s.mem s.vec element).1, (storeElement s.mem s.vec element).2.1, s.usable⟩
      (xs ++ [bytesAt s.mem element s.vec.elementSize]) := by
  obtain ⟨-, hcap, hcap', htop⟩ := h.bounds hh
  have ht : target s.vec = s.vec.data + s.vec.size * s.vec.elementSize := h.slot hh hlt
  have hslot := slot_lt hlt (Nat.sub_one_lt h.width.ne')
  have hwidth := h.width
  have hu : u32 (s.vec.size + 1) = s.vec.size + 1 := u32_of_lt (by omega)
  have hstore := contents_store (m := s.mem) ht (by omega) helement hapart
  rw [h.represents] at hstore
  simp only [storeElement, hu]
  exact ⟨hstore, h.nonNull, hwidth, h.low, h.high, hlt, h.capacity, h.room⟩

theorem push_grows (hh : SmallHeap lo hi) (h : Invariant lo hi s xs) {element : ℕ}
    {reply : Reply} {a : Answer} (hfull : s.vec.capacity ≤ s.vec.size)
    (helement : element + s.vec.elementSize ≤ 2 ^ 32) (hf : Fresh lo hi s element reply a)
    (hserved : Served (u32 (u32 (s.vec.capacity * 2) * s.vec.elementSize)) a) :
    Invariant lo hi
      ⟨(storeElement (moved s.mem s.vec reply a)
          { s.vec with data := a.ptr, capacity := u32 (s.vec.capacity * 2) } element).1,
        (storeElement (moved s.mem s.vec reply a)
          { s.vec with data := a.ptr, capacity := u32 (s.vec.capacity * 2) } element).2.1,
        Function.update s.usable a.ptr a.usable⟩
      (xs ++ [bytesAt s.mem element s.vec.elementSize]) := by
  obtain ⟨hsize, hcap, hcap', htop⟩ := h.bounds hh
  have hpos := h.capacity
  have heq : s.vec.size = s.vec.capacity := le_antisymm h.size hfull
  have hdouble : u32 (s.vec.capacity * 2) = s.vec.capacity * 2 := u32_of_lt (by omega)
  have htwice : s.vec.capacity * 2 * s.vec.elementSize =
      s.vec.capacity * s.vec.elementSize * 2 := Nat.mul_right_comm _ _ _
  have hrequest : u32 (s.vec.capacity * 2 * s.vec.elementSize) =
      s.vec.capacity * s.vec.elementSize * 2 := by
    rw [htwice, u32_of_lt (by omega)]
  rw [hdouble, hrequest] at hserved
  have hroom : s.vec.capacity * s.vec.elementSize * 2 ≤ a.usable :=
    (align_ge (by omega)).trans hserved.room
  have hhigh := hf.high
  have hheap := hh.top
  obtain ⟨hold, hnew⟩ := moved_spec hh h hfull hf (by omega)
  have hwidth := h.width
  have hwide : s.vec.elementSize ≤ s.vec.capacity * s.vec.elementSize :=
    Nat.le_mul_of_pos_left _ hpos
  have hsum : s.vec.size * s.vec.elementSize = s.vec.capacity * s.vec.elementSize := by rw [heq]
  have hu : u32 (s.vec.size + 1) = s.vec.size + 1 := u32_of_lt (by omega)
  let grown : Vec := { s.vec with data := a.ptr, capacity := s.vec.capacity * 2 }
  have ht : target grown = a.ptr + s.vec.size * s.vec.elementSize := by
    have hoff : u32 (s.vec.size * s.vec.elementSize) = s.vec.size * s.vec.elementSize :=
      u32_of_lt (by omega)
    change u32 (a.ptr + u32 (s.vec.size * s.vec.elementSize)) = _
    rw [hoff, u32_of_lt (by omega)]
  have hstore : contents (memcpy (moved s.mem s.vec reply a) (target grown) element
      grown.elementSize) { grown with size := grown.size + 1 } =
      contents (moved s.mem s.vec reply a) grown ++
        [bytesAt (moved s.mem s.vec reply a) element grown.elementSize] :=
    contents_store ht (by rw [ht]; simp only [grown]; omega) helement
      (by have := hf.element_apart; rw [ht]; simp only [grown]; omega)
  have hkept : contents (moved s.mem s.vec reply a) grown = xs := by
    rw [← h.represents]
    exact contents_congr rfl rfl hold
  have hbytes : bytesAt (moved s.mem s.vec reply a) element s.vec.elementSize =
      bytesAt s.mem element s.vec.elementSize :=
    bytesAt_congr fun j hj => hnew _ (by omega) (by omega)
  rw [hkept, hbytes] at hstore
  simp only [storeElement, hdouble, hu]
  refine ⟨hstore, hserved.nonNull, hwidth, hf.low, ?_, ?_, ?_, ?_⟩
  · simpa only [Function.update_self] using hf.high
  · simp only
    omega
  · simp only
    omega
  · simp only [Function.update_self]
    omega

theorem init_invariant {s : State} {c n : ℕ} {reply : Reply} {a : Answer}
    (he : Enabled s (.init c n reply)) (hn : 0 < n) (hsize : firstCapacity c * n ≤ 2 ^ 30)
    (ha : reply.kmalloc = some a) (hlo : lo ≤ a.ptr) (hhi : a.ptr + a.usable ≤ hi) :
    Invariant lo hi (next s (.init c n reply)) [] := by
  have hn0 : n ≠ 0 := by omega
  have hserved := he.served (u32 (firstCapacity c * n)) a (by simp [request, hn0]) ha
  have hu : u32 (firstCapacity c * n) = firstCapacity c * n := u32_of_lt (by omega)
  have hpos : 0 < firstCapacity c := by
    unfold firstCapacity
    split <;> omega
  have hroom : firstCapacity c * n ≤ a.usable := by
    have halign := align_ge (n := firstCapacity c * n) (by omega)
    have hserve := hserved.room
    rw [hu] at hserve
    omega
  simp only [next, perform, vectorInit, request, answer, recordBlock, hn0, ha, ↓reduceIte]
  refine ⟨rfl, hserved.nonNull, hn, hlo, ?_, Nat.zero_le _, hpos, ?_⟩
  · simpa only [Function.update_self] using hhi
  · simpa only [Function.update_self] using hroom

theorem push_preserves (hh : SmallHeap lo hi) (h : Invariant lo hi s xs) {element : ℕ}
    {reply : Reply} (he : Enabled s (.pushBack element reply))
    (ha : Admissible lo hi s (.pushBack element reply)) :
    Invariant lo hi (next s (.pushBack element reply))
      (listNext s xs (.pushBack element reply)) := by
  have hout := pushBack_outcome s.mem s.vec element reply
  have hperform : perform s (.pushBack element reply) =
      vectorPushBack s.mem s.vec element reply := rfl
  have hanswer : answer (.pushBack element reply) = reply.kmalloc := rfl
  simp only [next, listNext, hperform, hanswer]
  generalize vectorPushBack s.mem s.vec element reply = result at hout ⊢
  cases hout with
  | refused hwhy =>
    have hsame : recordBlock s.usable (request s.vec (.pushBack element reply)) reply.kmalloc =
        s.usable := by
      rcases hwhy with h0 | ⟨-, hnone⟩
      · simp [request, h0, recordBlock]
      · rw [hnone]
        cases request s.vec (.pushBack element reply) <;> rfl
    rw [hsame]
    exact h
  | fits h0 hlt =>
    obtain ⟨helement, hapart, -⟩ := ha h0
    have hnone : request s.vec (.pushBack element reply) = none := by
      simp [request, Nat.not_le.mpr hlt]
    rw [hnone]
    exact push_fits hh h hlt helement (hapart hlt)
  | @grows a h0 hfull hreply =>
    obtain ⟨helement, -, hfresh⟩ := ha h0
    have hrequest : request s.vec (.pushBack element reply) =
        some (u32 (u32 (s.vec.capacity * 2) * s.vec.elementSize)) := by
      simp [request, h0, hfull]
    have hserved := he.served _ a hrequest hreply
    rw [hrequest, hreply]
    exact push_grows hh h hfull helement (hfresh a hfull hreply) hserved

theorem step_preserves_invariant (hh : SmallHeap lo hi) (h : Invariant lo hi s xs)
    (he : Enabled s e) (ha : Admissible lo hi s e) :
    Invariant lo hi (next s e) (listNext s xs e) := by
  cases e with
  | init => cases ha
  | free => cases ha
  | pushBack element reply => exact push_preserves hh h he ha
  | popBack =>
    by_cases h0 : s.vec.size = 0
    · have hxs : xs = [] := by
        rw [← h.represents, contents, h0]
        rfl
      subst hxs
      simpa [next, perform, vectorPopBack, h0, request, recordBlock, listNext] using h
    · simp only [next, perform, vectorPopBack, h0, ↓reduceIte, request, answer, recordBlock,
        listNext]
      have hlast : contents s.mem s.vec = contents s.mem { s.vec with size := s.vec.size - 1 } ++
          [bytesAt s.mem (s.vec.data + (s.vec.size - 1) * s.vec.elementSize) s.vec.elementSize] :=
        contents_succ (by omega)
      have hrep : contents s.mem { s.vec with size := s.vec.size - 1 } = xs.dropLast := by
        rw [← h.represents, hlast, List.dropLast_concat]
      have hsize := h.size
      exact ⟨hrep, h.nonNull, h.width, h.low, h.high, by simp only; omega, h.capacity, h.room⟩
  | clear => exact ⟨rfl, h.nonNull, h.width, h.low, h.high, Nat.zero_le _, h.capacity, h.room⟩
  | get => exact h
  | other m =>
    have hrep : contents m s.vec = xs := by
      rw [← h.represents]
      obtain ⟨hsize, -, -, -⟩ := h.bounds hh
      have hroom := h.room
      exact contents_congr rfl rfl fun x hx => ha _ (by omega) (by omega)
    exact ⟨hrep, h.nonNull, h.width, h.low, h.high, h.size, h.capacity, h.room⟩

end Steps

section Runs

variable {lo hi : ℕ} {s : State} {xs : List (List UInt8)}

theorem run_invariant (hh : SmallHeap lo hi) (h : Run lo hi s xs) : Invariant lo hi s xs := by
  induction h with
  | init he hn hsize ha hlo hhi => exact init_invariant he hn hsize ha hlo hhi
  | step _ he ha ih => exact step_preserves_invariant hh ih he ha

/-- In every state of every run the vector is the list that the calls built. -/
theorem run_refines (hh : SmallHeap lo hi) (h : Run lo hi s xs) : Refines s xs :=
  (run_invariant hh h).refines hh

end Runs

section KernelHeap

variable {lo hi n p element : ℕ} {heap heap' : Heap} {bs : List Block} {b : Block} {s : State}

/-- The block `p` of the kernel heap, and `kfree` of the vector's block on that heap. -/
def kernelReply (heap : Heap) (p old : ℕ) : Reply :=
  ⟨some ⟨p, sizeField heap.mem (p - 12), heap.mem⟩,
    fun m => ((kfree { heap with mem := m } old).map Heap.mem).getD m⟩

theorem apart_of_disjoint {a w e v : ℕ} (hw : 0 < w) (hv : 0 < v)
    (h : ∀ x, e ≤ x → x < e + v → x < a ∨ a + w ≤ x) : a + w ≤ e ∨ e + v ≤ a := by
  by_cases hle : e ≤ a
  · have := h a hle
    omega
  · have := h e le_rfl (by omega)
    omega

/-- The kernel's allocator replies as the vector needs it, for an element in the payload
of a used block or outside the heap. -/
theorem kernelReply_fresh (hr : HeapRange lo hi) (h : Represents lo hi heap bs) (hb : b ∈ bs)
    (hf : b.free = false) (hlt : b.addr + 12 < 2 ^ 32) (hm : s.mem = heap.mem)
    (hd : s.vec.data = b.addr + 12) (hu : s.usable s.vec.data = b.size)
    (hw : 0 < s.vec.elementSize)
    (he : ∀ x, element ≤ x → x < element + s.vec.elementSize → Guarded lo hi bs hi x)
    (hk : kmalloc heap n = some (heap', p)) (hp : p ≠ 0) :
    ∃ a, (kernelReply heap' p s.vec.data).kmalloc = some a ∧ Served n a ∧
      Fresh lo hi s element (kernelReply heap' p s.vec.data) a := by
  have hout := kmalloc_outcome hr h n
  rw [hk] at hout
  cases hout with
  | full => exact absurd rfl hp
  | wrapped => exact absurd rfl hp
  | @served cs c hal hrep hc hcf hroom hclt =>
    have hsize : sizeField (taken heap c.addr n).mem (c.addr + 12 - 12) = c.size :=
      (hrep.listed.header hc).size
    have hbounds := block_bounds hr hrep.arena.tiles hc
    have hbcs := (allocate_served hal).2 b hb hf
    have hne := allocate_fresh h.arena.tiles hb hf hal
    have hapart := hrep.arena.tiles.apart hc hbcs (fun hcb => hne (by rw [hcb]))
    -- the vector's block and the element are guarded before and after
    have hold : ∀ x, s.vec.data ≤ x → x < s.vec.data + b.size → Guarded lo hi bs hi x := by
      intro x h1 h2
      have := (h.arena.tiles.mem_bounds hb).2
      exact .inr (.inr ⟨b, hb, hf, by omega, by omega, by omega⟩)
    have hkeep : ∀ x, Guarded lo hi bs hi x → Guarded lo hi cs hi x := fun x hg =>
      hg.keep fun y hy hyf _ => (allocate_served hal).2 y hy hyf
    have hused : ∀ x, c.addr + 12 ≤ x → x < c.addr + 12 + c.size → Guarded lo hi cs hi x := by
      intro x h1 h2
      exact .inr (.inr ⟨c, hc, hcf, by omega, h1, h2⟩)
    have hdisjoint : c.addr + (12 + c.size) ≤ element ∨
        element + s.vec.elementSize ≤ c.addr := by
      obtain ⟨d, hdm, hdf, hda, hle⟩ := allocate_within (by norm_num) hrep.arena.tiles hal hc rfl
      refine apart_of_disjoint (by omega) hw fun x h1 h2 => ?_
      have := (he x h1 h2).off_extent h.arena.tiles hdm (.inl hdf)
      omega
    have hbytes : ∀ x, Guarded lo hi bs hi x → (taken heap c.addr n).mem x = s.mem x :=
      fun x hg => (taken_outside hr h hal hg).trans (congrFun hm x).symm
    let a : Answer := ⟨c.addr + 12, c.size, (taken heap c.addr n).mem⟩
    have ha : (kernelReply (taken heap c.addr n) (c.addr + 12) s.vec.data).kmalloc = some a := by
      simp only [kernelReply, hsize, a]
    refine ⟨a, ha, ⟨hp, hclt, hroom, by simp only [a]; omega⟩, ?_⟩
    refine ⟨by simp only [a]; omega, by simp only [a]; omega, ?_, ?_, ?_, ?_⟩
    · simp only [a, hu]
      omega
    · simp only [a]
      omega
    · rintro x (⟨h1, h2⟩ | ⟨h1, h2⟩)
      · exact hbytes x (hold x h1 (by omega))
      · exact hbytes x (he x h1 h2)
    · intro k hk x hx
      have hrep₂ : Represents lo hi (copied (taken heap c.addr n) (c.addr + 12) s.vec.data k) cs :=
        ⟨hrep.listed.copy_payload hrep.arena.tiles hr hc hk, hrep.arena⟩
      obtain ⟨heap₃, hk₃, -⟩ := kfree_refines hr hrep₂ hbcs hlt
      have hx' : Guarded lo hi cs hi x := by
        rcases hx with ⟨h1, h2⟩ | ⟨h1, h2⟩
        · exact hused x h1 h2
        · exact hkeep x (he x h1 h2)
      have hfreed : (kernelReply (taken heap c.addr n) (c.addr + 12) s.vec.data).kfree
          (memcpy a.mem a.ptr s.vec.data k) = heap₃.mem := by
        have hk₃' : kfree { taken heap c.addr n with
            mem := memcpy (taken heap c.addr n).mem (c.addr + 12) s.vec.data k } (b.addr + 12) =
            some heap₃ := hk₃
        simp only [kernelReply, a]
        rw [hd] at hk₃' ⊢
        rw [hk₃']
        rfl
      rw [hfreed]
      exact kfree_outside hr hrep₂ hbcs hlt hk₃ hx'

end KernelHeap

section Example

open VectorRoom (zeroVector blockAt4096 blockAt4096_enabled)

/-- A vector of two elements of 8 bytes in the block at 4096. -/
theorem run_refines_pushed : Refines
    (next (next zeroVector (.init 2 8 (blockAt4096 16))) (.pushBack 65536 (blockAt4096 0)))
    (listNext (next zeroVector (.init 2 8 (blockAt4096 16))) []
      (.pushBack 65536 (blockAt4096 0))) := by
  have hh : SmallHeap 4096 8192 := ⟨by norm_num, by norm_num⟩
  refine run_refines hh (.step (.init (a := ⟨4096, 16, fun _ => 0⟩) ?_ ?_ ?_ rfl ?_ ?_) ?_ ?_)
  · refine blockAt4096_enabled (n := 16) (by norm_num) ?_ rfl rfl (by decide)
    rintro c k reply ⟨⟩
    norm_num
  · norm_num
  · norm_num [firstCapacity]
  · norm_num
  · norm_num
  · refine ⟨fun c k reply he => ?_, fun n a hn => ?_⟩
    · cases he
    · cases hn
  · refine fun _ => ⟨by decide, fun _ => by decide, fun a hfull => ?_⟩
    exact absurd hfull (by decide)

end Example

end VectorRefinement
