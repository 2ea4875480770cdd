import Mathlib.Data.List.Induction
import Mathlib.Data.List.Nodup

/-!
# Tables with room for so many keys

Binding a key replaces its value where the key is already bound, adds it behind the others
while there is room, and is lost otherwise. After any sequence of bindings the table has the
keys that came first, each with the value that came last.
-/
namespace BoundedTable

variable {K V : Type*} [DecidableEq K]

abbrev Table (K V : Type*) := List (K × V)

def bindKey : ℕ → K → V → Table K V → Table K V
  | room, k, v, [] => if 0 < room then [(k, v)] else []
  | room, k, v, e :: es => if e.1 = k then (k, v) :: es else e :: bindKey (room - 1) k v es

def lookup (k : K) (t : Table K V) : Option V := (t.find? fun e => e.1 = k).map Prod.snd

def keys (t : Table K V) : List K := t.map Prod.fst

def bindAll (capacity : ℕ) (bindings : Table K V) : Table K V :=
  bindings.foldl (fun t b => bindKey capacity b.1 b.2 t) []

def firstKeys (capacity : ℕ) (bindings : Table K V) : List K :=
  (keys bindings).eraseDups.take capacity

def lastValue (k : K) (bindings : Table K V) : Option V :=
  ((bindings.filter fun b => b.1 = k).getLast?).map Prod.snd

section Steps

variable {room : ℕ} {k k' : K} {v : V} {t : Table K V}

theorem keys_bindKey (room : ℕ) (k : K) (v : V) (t : Table K V) :
    keys (bindKey room k v t) =
      if k ∉ keys t ∧ t.length < room then keys t ++ [k] else keys t := by
  induction t generalizing room with
  | nil =>
    rw [bindKey]
    by_cases h : 0 < room
    · simp [h, keys]
    · simp [h, keys]
  | cons e es ih =>
    rw [bindKey]
    by_cases hk : e.1 = k
    · simp [hk, keys]
    · have hroom : es.length < room - 1 ↔ (e :: es).length < room := by
        rw [List.length_cons]
        omega
      have hmem : k ∉ keys es ↔ k ∉ keys (e :: es) := by
        simp [keys, Ne.symm hk]
      have hih := ih (room - 1)
      simp only [hroom, hmem] at hih
      rw [if_neg hk]
      calc keys (e :: bindKey (room - 1) k v es) = e.1 :: keys (bindKey (room - 1) k v es) := rfl
        _ = e.1 :: if k ∉ keys (e :: es) ∧ (e :: es).length < room then keys es ++ [k]
              else keys es := by rw [hih]
        _ = if k ∉ keys (e :: es) ∧ (e :: es).length < room then keys (e :: es) ++ [k]
              else keys (e :: es) := by rw [apply_ite (e.1 :: ·)]; rfl

theorem lookup_cons (e : K × V) (t : Table K V) :
    lookup k (e :: t) = if e.1 = k then some e.2 else lookup k t := by
  rw [lookup, lookup, List.find?_cons]
  by_cases h : e.1 = k
  · simp [h]
  · simp [h]

/-- The key that is bound is found if it was there or there was room; other keys are as before. -/
theorem lookup_bindKey (room : ℕ) (k : K) (v : V) (t : Table K V) (k' : K) :
    lookup k' (bindKey room k v t) =
      if k' = k ∧ (k ∈ keys t ∨ t.length < room) then some v else lookup k' t := by
  induction t generalizing room with
  | nil =>
    rw [bindKey]
    by_cases h : 0 < room
    · by_cases hk : k' = k
      · simp [h, hk, lookup_cons]
      · simp [h, hk, Ne.symm hk, lookup_cons]
    · simp [h, keys]
  | cons e es ih =>
    rw [bindKey]
    by_cases hek : e.1 = k
    · rw [if_pos hek, lookup_cons, lookup_cons]
      by_cases hk : k' = k
      · simp [hk, hek, keys]
      · simp [hk, hek, Ne.symm hk]
    · have hroom : es.length < room - 1 ↔ (e :: es).length < room := by
        rw [List.length_cons]
        omega
      have hmem : k ∈ keys es ↔ k ∈ keys (e :: es) := by
        simp [keys, Ne.symm hek]
      rw [if_neg hek, lookup_cons, ih, lookup_cons]
      simp only [hroom, hmem]
      by_cases hk : e.1 = k'
      · have hne : k' ≠ k := fun h => hek (hk.trans h)
        simp [hk, hne]
      · rw [if_neg hk, if_neg hk]

theorem lookup_none_iff : lookup k t = none ↔ k ∉ keys t := by
  rw [lookup, Option.map_eq_none_iff, List.find?_eq_none, keys, List.mem_map]
  constructor
  · rintro h ⟨e, he, rfl⟩
    exact absurd (h e he) (by simp)
  · intro h e he
    simp only [decide_eq_true_eq]
    exact fun hk => h ⟨e, he, hk⟩

end Steps

section Runs

variable {capacity : ℕ} {k : K} {bindings : Table K V}

theorem firstKeys_append (capacity : ℕ) (bindings : Table K V) (b : K × V) :
    firstKeys capacity (bindings ++ [b]) =
      if b.1 ∉ firstKeys capacity bindings ∧ (firstKeys capacity bindings).length < capacity then
        firstKeys capacity bindings ++ [b.1]
      else firstKeys capacity bindings := by
  have hkeys : keys (bindings ++ [b]) = keys bindings ++ [b.1] := List.map_append
  rw [firstKeys, hkeys, List.eraseDups_append]
  by_cases hmem : b.1 ∈ keys bindings
  · -- an old key: it is among the first ones, or the table was full before it came
    have hnone : [b.1].removeAll (keys bindings) = [] := by
      simp [List.removeAll, hmem]
    rw [hnone, List.eraseDups_nil, List.append_nil, ← firstKeys, if_neg]
    rintro ⟨hnot, hroom⟩
    rw [firstKeys, List.length_take] at hroom
    rw [firstKeys, List.take_of_length_le (by omega)] at hnot
    exact hnot (List.mem_eraseDups.mpr hmem)
  · have hone : ([b.1].removeAll (keys bindings)).eraseDups = [b.1] := by
      have hself : [b.1].removeAll (keys bindings) = [b.1] := by
        simp [List.removeAll, hmem]
      rw [hself, List.eraseDups_cons, List.filter_nil, List.eraseDups_nil]
    have hnot : b.1 ∉ firstKeys capacity bindings :=
      fun h => hmem (List.mem_eraseDups.mp (List.mem_of_mem_take h))
    rw [hone]
    by_cases hroom : (keys bindings).eraseDups.length < capacity
    · have hall : firstKeys capacity bindings = (keys bindings).eraseDups :=
        List.take_of_length_le (Nat.le_of_lt hroom)
      rw [if_pos ⟨hnot, hall ▸ hroom⟩, hall]
      apply List.take_of_length_le
      rw [List.length_append, List.length_singleton]
      omega
    · have hfull : ¬(firstKeys capacity bindings).length < capacity := by
        rw [firstKeys, List.length_take]
        omega
      rw [if_neg fun h => hfull h.2, List.take_append_of_le_length (by omega), firstKeys]

theorem lastValue_append (k : K) (bindings : Table K V) (b : K × V) :
    lastValue k (bindings ++ [b]) = if k = b.1 then some b.2 else lastValue k bindings := by
  rw [lastValue, List.filter_append]
  by_cases h : k = b.1
  · simp [h]
  · simp [h, Ne.symm h, lastValue]

theorem bindAll_append (capacity : ℕ) (bindings : Table K V) (b : K × V) :
    bindAll capacity (bindings ++ [b]) = bindKey capacity b.1 b.2 (bindAll capacity bindings) := by
  rw [bindAll, List.foldl_append]
  rfl

theorem keys_bindAll (capacity : ℕ) (bindings : Table K V) :
    keys (bindAll capacity bindings) = firstKeys capacity bindings := by
  induction bindings using List.reverseRecOn with
  | nil => simp [bindAll, keys, firstKeys]
  | append_singleton bindings b ih =>
    have hlength : (bindAll capacity bindings).length = (firstKeys capacity bindings).length := by
      rw [← ih, keys, List.length_map]
    rw [bindAll_append, keys_bindKey, ih, hlength, firstKeys_append]

theorem lookup_bindAll (capacity : ℕ) (bindings : Table K V) (k : K) :
    lookup k (bindAll capacity bindings) =
      if k ∈ firstKeys capacity bindings then lastValue k bindings else none := by
  by_cases hk : k ∈ firstKeys capacity bindings
  · rw [if_pos hk]
    induction bindings using List.reverseRecOn with
    | nil => simp [firstKeys, keys] at hk
    | append_singleton bindings b ih =>
      have hlength : (bindAll capacity bindings).length =
          (firstKeys capacity bindings).length := by
        rw [← keys_bindAll, keys, List.length_map]
      rw [bindAll_append, lookup_bindKey, keys_bindAll, hlength, lastValue_append]
      by_cases hkb : k = b.1
      · have hin : b.1 ∈ firstKeys capacity bindings ∨
            (firstKeys capacity bindings).length < capacity := by
          rw [firstKeys_append, ← hkb] at hk
          rw [← hkb]
          by_contra hnot
          rw [not_or] at hnot
          rw [if_neg fun h => hnot.2 h.2] at hk
          exact hnot.1 hk
        rw [if_pos ⟨hkb, hin⟩, if_pos hkb]
      · rw [if_neg fun h => hkb h.1, if_neg hkb]
        apply ih
        rw [firstKeys_append] at hk
        split at hk
        · rcases List.mem_append.mp hk with h | h
          · exact h
          · exact absurd (List.mem_singleton.mp h) hkb
        · exact hk
  · rw [if_neg hk, lookup_none_iff, keys_bindAll]
    exact hk

theorem firstKeys_nodup (capacity : ℕ) (bindings : Table K V) :
    (firstKeys capacity bindings).Nodup := by
  induction bindings using List.reverseRecOn with
  | nil => simp [firstKeys, keys]
  | append_singleton bindings b ih =>
    rw [firstKeys_append]
    split
    · rename_i h
      rw [List.nodup_append]
      refine ⟨ih, List.nodup_singleton _, ?_⟩
      intro a ha c hc e
      rw [List.mem_singleton.mp hc] at e
      exact h.1 (e ▸ ha)
    · exact ih

theorem firstKeys_length (capacity : ℕ) (bindings : Table K V) :
    (firstKeys capacity bindings).length ≤ capacity := by
  rw [firstKeys, List.length_take]
  exact Nat.min_le_left _ _

end Runs

end BoundedTable
