import SojebOS.KernelHeap
import Mathlib.Logic.Function.Basic

/-!
# The growable array

The vector functions over byte memory. What the allocator does during a call comes in as
a reply: the block that `kmalloc` hands out, if any, and what `kfree` makes of the memory.
-/
namespace GrowableVector

open ByteMemory MachineWord
open KernelHeap (align memcpy)

/-- The struct `Vector`. A null `data` pointer is 0. -/
structure Vec where
  data : ℕ
  size : ℕ
  capacity : ℕ
  elementSize : ℕ
  deriving DecidableEq, Repr

/-- A block from `kmalloc`, with its usable size and the memory after the call. -/
structure Answer where
  ptr : ℕ
  usable : ℕ
  mem : Bytes

structure Reply where
  kmalloc : Option Answer
  kfree : Bytes → Bytes

/-- Each function returns the memory, the vector and its result. -/
def vectorResize (m : Bytes) (vec : Vec) (newCapacity : ℕ) (reply : Reply) : Bytes × Vec × Bool :=
  match reply.kmalloc with
  | none => (m, vec, false)
  | some newData =>
    let m := newData.mem
    let m :=
      if vec.data ≠ 0 ∧ 0 < vec.size then
        let elementsToCopy := if vec.size < newCapacity then vec.size else newCapacity
        reply.kfree (memcpy m newData.ptr vec.data (u32 (elementsToCopy * vec.elementSize)))
      else m
    (m, { vec with data := newData.ptr, capacity := newCapacity }, true)

def firstCapacity (initialCapacity : ℕ) : ℕ := if initialCapacity = 0 then 4 else initialCapacity

def vectorInit (m : Bytes) (vec : Vec) (initialCapacity elementSize : ℕ) (reply : Reply) :
    Bytes × Vec × Bool :=
  if elementSize = 0 then (m, vec, false)
  else
    match reply.kmalloc with
    | none => (m, ⟨0, 0, 0, elementSize⟩, false)
    | some data => (data.mem, ⟨data.ptr, 0, firstCapacity initialCapacity, elementSize⟩, true)

def vectorFree (m : Bytes) (vec : Vec) (reply : Reply) : Bytes × Vec :=
  if vec.data ≠ 0 then (reply.kfree m, { vec with data := 0, size := 0, capacity := 0 })
  else (m, vec)

def target (vec : Vec) : ℕ := u32 (vec.data + u32 (vec.size * vec.elementSize))

def storeElement (m : Bytes) (vec : Vec) (element : ℕ) : Bytes × Vec × Bool :=
  (memcpy m (target vec) element vec.elementSize, { vec with size := u32 (vec.size + 1) }, true)

def vectorPushBack (m : Bytes) (vec : Vec) (element : ℕ) (reply : Reply) : Bytes × Vec × Bool :=
  if element = 0 then (m, vec, false)
  else if vec.capacity ≤ vec.size then
    match vectorResize m vec (u32 (vec.capacity * 2)) reply with
    | (m, vec, false) => (m, vec, false)
    | (m, vec, true) => storeElement m vec element
  else storeElement m vec element

def vectorGet (vec : Vec) (index : ℕ) : ℕ :=
  if vec.size ≤ index then 0 else u32 (vec.data + u32 (index * vec.elementSize))

def vectorPopBack (vec : Vec) : Vec × Bool :=
  if vec.size = 0 then (vec, false) else ({ vec with size := vec.size - 1 }, true)

def vectorClear (vec : Vec) : Vec := { vec with size := 0 }

/-- The memory, a vector, and the usable size last handed out for each pointer. -/
structure State where
  mem : Bytes
  vec : Vec
  usable : ℕ → ℕ

/-- The calls on the vector, and whatever the rest of the kernel does to memory. -/
inductive Event where
  | init (initialCapacity elementSize : ℕ) (reply : Reply)
  | pushBack (element : ℕ) (reply : Reply)
  | popBack
  | clear
  | free (reply : Reply)
  | get (index : ℕ)
  | other (m : Bytes)

/-- The size with which the call asks `kmalloc`, if it does. -/
def request (vec : Vec) : Event → Option ℕ
  | .init initialCapacity elementSize _ =>
    if elementSize = 0 then none else some (u32 (firstCapacity initialCapacity * elementSize))
  | .pushBack element _ =>
    if element ≠ 0 ∧ vec.capacity ≤ vec.size then
      some (u32 (u32 (vec.capacity * 2) * vec.elementSize))
    else none
  | _ => none

def answer : Event → Option Answer
  | .init _ _ reply => reply.kmalloc
  | .pushBack _ reply => reply.kmalloc
  | _ => none

def recordBlock (usable : ℕ → ℕ) : Option ℕ → Option Answer → ℕ → ℕ
  | some _, some a => Function.update usable a.ptr a.usable
  | _, _ => usable

def perform (s : State) : Event → Bytes × Vec × Bool
  | .init initialCapacity elementSize reply =>
    vectorInit s.mem s.vec initialCapacity elementSize reply
  | .pushBack element reply => vectorPushBack s.mem s.vec element reply
  | .popBack => (s.mem, vectorPopBack s.vec)
  | .clear => (s.mem, vectorClear s.vec, true)
  | .free reply => ((vectorFree s.mem s.vec reply).1, (vectorFree s.mem s.vec reply).2, true)
  | .get _ => (s.mem, s.vec, true)
  | .other m => (m, s.vec, true)

def next (s : State) (e : Event) : State :=
  ⟨(perform s e).1, (perform s e).2.1, recordBlock s.usable (request s.vec e) (answer e)⟩

/-- What `kmalloc` guarantees of a block it hands out for `n` bytes. -/
structure Served (n : ℕ) (a : Answer) : Prop where
  nonNull : a.ptr ≠ 0
  word : a.ptr < 2 ^ 32
  room : align n ≤ a.usable
  top : a.ptr + a.usable ≤ 2 ^ 32

/-- Arguments are 32-bit values, and `kmalloc` keeps its promise. -/
structure Enabled (s : State) (e : Event) : Prop where
  words : ∀ c n reply, e = .init c n reply → c < 2 ^ 32 ∧ n < 2 ^ 32
  served : ∀ n a, request s.vec e = some n → answer e = some a → Served n a

section Calls

variable {m : Bytes} {vec : Vec} {element n : ℕ} {reply : Reply} {a : Answer}

theorem align_ge (hn : n ≤ 2 ^ 32 - 8) : n ≤ align n := by
  have hmask := and_high_mask (u32_lt (n + 7)) (by norm_num : 3 ≤ 32)
  have halign : align n = u32 (n + 7) / 8 * 8 := hmask
  rw [halign, u32_of_lt (by omega)]
  omega

/-- The memory in which a resize to `a` leaves the elements. -/
def moved (m : Bytes) (vec : Vec) (reply : Reply) (a : Answer) : Bytes :=
  (vectorResize m vec (u32 (vec.capacity * 2)) { reply with kmalloc := some a }).1

/-- A push is refused with everything as it was, fits, or grows the vector first. -/
inductive PushOutcome (m : Bytes) (vec : Vec) (element : ℕ) (reply : Reply) :
    Bytes × Vec × Bool → Prop where
  | refused : element = 0 ∨ vec.capacity ≤ vec.size ∧ reply.kmalloc = none →
      PushOutcome m vec element reply (m, vec, false)
  | fits : element ≠ 0 → vec.size < vec.capacity →
      PushOutcome m vec element reply (storeElement m vec element)
  | grows {a : Answer} : element ≠ 0 → vec.capacity ≤ vec.size → reply.kmalloc = some a →
      PushOutcome m vec element reply (storeElement (moved m vec reply a)
        { vec with data := a.ptr, capacity := u32 (vec.capacity * 2) } element)

theorem pushBack_outcome (m : Bytes) (vec : Vec) (element : ℕ) (reply : Reply) :
    PushOutcome m vec element reply (vectorPushBack m vec element reply) := by
  unfold vectorPushBack
  by_cases h0 : element = 0
  · rw [if_pos h0]
    exact .refused (.inl h0)
  rw [if_neg h0]
  by_cases hfull : vec.capacity ≤ vec.size
  · rw [if_pos hfull]
    cases ha : reply.kmalloc with
    | none =>
      simp only [vectorResize, ha]
      exact .refused (.inr ⟨hfull, ha⟩)
    | some a =>
      have hgrows := PushOutcome.grows (m := m) h0 hfull ha
      simpa only [vectorResize, moved, ha] using hgrows
  · rw [if_neg hfull]
    exact .fits h0 (by omega)

end Calls

end GrowableVector
