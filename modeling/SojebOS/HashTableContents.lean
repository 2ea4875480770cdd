import SojebOS.HashTable
import SojebOS.WhileLoop
import Mathlib.Data.List.Flatten
import Mathlib.Data.List.Nodup

/-!
# What the buckets contain

Every entry is in the bucket of its key, so that no two buckets share a key, and the entries are
the bindings that insertions made and nothing has undone since.
-/
namespace HashTableContents

open HashTable WhileLoop

def rebind (key : CString) (binding : Option UInt32) : Op → Option UInt32
  | .insert k v => if key = k then some v else binding
  | .remove k => if key = k then none else binding

/-- The value that a key was last inserted with, if it was not removed since. -/
def latest (key : CString) (ops : List Op) : Option UInt32 := ops.foldl (rebind key) none

def Placed (t : Table) : Prop := ∀ i, ∀ e ∈ t.buckets i, hashFunction e.key % t.size = i

section Chains

variable {k : CString} {value : UInt32} {chain pre post : List HashEntry} {e f : HashEntry}

theorem updateEntry_absent (h : ∀ f ∈ chain, f.key ≠ k) : updateEntry k value chain = none := by
  induction chain with
  | nil => rfl
  | cons e es ih =>
    have hne := h e List.mem_cons_self
    rw [updateEntry, if_neg (mt (strcmp_iff _ _).mp hne),
      ih fun f hf => h f (List.mem_cons_of_mem e hf)]
    rfl

theorem updateEntry_split (hpre : ∀ f ∈ pre, f.key ≠ k) (he : e.key = k) :
    updateEntry k value (pre ++ e :: post) = some (pre ++ { e with value := value } :: post) := by
  induction pre with
  | nil => exact if_pos ((strcmp_iff _ _).mpr he)
  | cons f pre ih =>
    have hne := hpre f List.mem_cons_self
    rw [List.cons_append, updateEntry, if_neg (mt (strcmp_iff _ _).mp hne),
      ih fun g hg => hpre g (List.mem_cons_of_mem f hg)]
    rfl

theorem unlinkEntry_absent (h : ∀ f ∈ chain, f.key ≠ k) : unlinkEntry k chain = chain := by
  induction chain with
  | nil => rfl
  | cons e es ih =>
    have hne := h e List.mem_cons_self
    rw [unlinkEntry, if_neg (mt (strcmp_iff _ _).mp hne),
      ih fun f hf => h f (List.mem_cons_of_mem e hf)]

theorem unlinkEntry_split (hpre : ∀ f ∈ pre, f.key ≠ k) (he : e.key = k) :
    unlinkEntry k (pre ++ e :: post) = pre ++ post := by
  induction pre with
  | nil => exact if_pos ((strcmp_iff _ _).mpr he)
  | cons f pre ih =>
    have hne := hpre f List.mem_cons_self
    rw [List.cons_append, unlinkEntry, if_neg (mt (strcmp_iff _ _).mp hne),
      ih fun g hg => hpre g (List.mem_cons_of_mem f hg)]
    rfl

theorem Distinct.split (h : Distinct (pre ++ e :: post)) : ∀ f ∈ post, f.key ≠ e.key := by
  intro f hf he
  rw [Distinct, List.map_append, List.map_cons] at h
  have hout := (List.nodup_cons.mp (List.nodup_append.mp h).2.1).1
  exact hout (he ▸ List.mem_map_of_mem hf)

theorem mem_insertEntry (h : Distinct chain) :
    f ∈ insertEntry k value chain ↔ f = ⟨k, value⟩ ∨ f ∈ chain ∧ f.key ≠ k := by
  rcases first_or_none (fun e : HashEntry => e.key = k) chain with
    hnone | ⟨pre, e, post, rfl, rfl, hpre⟩
  · rw [insertEntry, updateEntry_absent hnone, Option.getD_none, List.mem_cons]
    exact or_congr_right (and_iff_left_of_imp (hnone f)).symm
  · have hpost := Distinct.split h
    rw [insertEntry, updateEntry_split hpre rfl, Option.getD_some]
    simp only [List.mem_append, List.mem_cons]
    constructor
    · rintro (hf | rfl | hf)
      · exact .inr ⟨.inl hf, hpre f hf⟩
      · exact .inl rfl
      · exact .inr ⟨.inr (.inr hf), hpost f hf⟩
    · rintro (rfl | ⟨hf | rfl | hf, hne⟩)
      · exact .inr (.inl rfl)
      · exact .inl hf
      · exact absurd rfl hne
      · exact .inr (.inr hf)

theorem mem_unlinkEntry (h : Distinct chain) :
    f ∈ unlinkEntry k chain ↔ f ∈ chain ∧ f.key ≠ k := by
  rcases first_or_none (fun e : HashEntry => e.key = k) chain with
    hnone | ⟨pre, e, post, rfl, rfl, hpre⟩
  · rw [unlinkEntry_absent hnone]
    exact (and_iff_left_of_imp (hnone f)).symm
  · have hpost := Distinct.split h
    rw [unlinkEntry_split hpre rfl]
    simp only [List.mem_append, List.mem_cons]
    constructor
    · rintro (hf | hf)
      · exact ⟨.inl hf, hpre f hf⟩
      · exact ⟨.inr (.inr hf), hpost f hf⟩
    · rintro ⟨hf | rfl | hf, hne⟩
      · exact .inl hf
      · exact absurd rfl hne
      · exact .inr hf

end Chains

section Runs

variable {t : Table} {key : CString} {value : UInt32} {size n : ℕ} {ops : List Op} {op : Op}

theorem runOps_append (t : Table) (ops : List Op) (op : Op) :
    runOps t (ops ++ [op]) = apply (runOps t ops) op := by
  rw [runOps, List.foldl_append]
  rfl

theorem latest_append (key : CString) (ops : List Op) (op : Op) :
    latest key (ops ++ [op]) = rebind key (latest key ops) op := by
  rw [latest, List.foldl_append]
  rfl

theorem apply_size (t : Table) (op : Op) : (apply t op).size = t.size := by
  cases op with
  | insert k v => rfl
  | remove k => rfl

/-- What an operation does to the bucket of its key, and that it does nothing to the others. -/
theorem mem_apply (hsound : Sound t) {i : ℕ} {e : HashEntry} :
    e ∈ (apply t op).buckets i ↔ match op with
      | .insert k v => i = hashFunction k % t.size ∧ e = ⟨k, v⟩ ∨
          e ∈ t.buckets i ∧ (i = hashFunction k % t.size → e.key ≠ k)
      | .remove k => e ∈ t.buckets i ∧ (i = hashFunction k % t.size → e.key ≠ k) := by
  cases op with
  | insert k v =>
    by_cases hi : i = hashFunction k % t.size
    · simp only [apply, hashTableInsert, hi, Function.update_self, true_and, true_imp_iff]
      exact mem_insertEntry (hsound _)
    · simp only [apply, hashTableInsert, Function.update_of_ne hi, hi, false_and, false_or,
        false_imp_iff, and_true]
  | remove k =>
    by_cases hi : i = hashFunction k % t.size
    · simp only [apply, hashTableRemove, hi, Function.update_self, true_imp_iff]
      exact mem_unlinkEntry (hsound _)
    · simp only [apply, hashTableRemove, Function.update_of_ne hi, hi, false_imp_iff, and_true]

theorem apply_placed (hsound : Sound t) (h : Placed t) (op : Op) : Placed (apply t op) := by
  intro i e he
  rw [apply_size]
  rw [mem_apply hsound] at he
  cases op with
  | insert k v =>
    rcases he with ⟨rfl, rfl⟩ | ⟨he, -⟩
    · rfl
    · exact h i e he
  | remove k => exact h i e he.1

/-- After any operations on a new table. -/
structure Contents (size : ℕ) (ops : List Op) (t : Table) : Prop where
  size_eq : t.size = size
  sound : Sound t
  placed : Placed t
  latest : ∀ key value, ⟨key, value⟩ ∈ t.buckets (hashFunction key % size) ↔
    latest key ops = some value

theorem runOps_contents (size : ℕ) (ops : List Op) :
    Contents size ops (runOps (hashTableCreate size) ops) := by
  induction ops using List.reverseRecOn with
  | nil =>
    refine ⟨rfl, fun i => List.nodup_nil, fun i e he => absurd he List.not_mem_nil,
      fun key value => ?_⟩
    exact iff_of_false List.not_mem_nil (by rintro ⟨⟩)
  | append_singleton ops op ih =>
    rw [runOps_append]
    refine ⟨(apply_size _ op).trans ih.size_eq, apply_sound ih.sound op,
      apply_placed ih.sound ih.placed op, fun key value => ?_⟩
    rw [mem_apply ih.sound, latest_append]
    cases op with
    | insert k v =>
      simp only [rebind, ih.latest, ih.size_eq]
      by_cases hk : key = k
      · subst hk
        simp [eq_comm]
      · simp [hk]
    | remove k =>
      simp only [rebind, ih.latest, ih.size_eq]
      by_cases hk : key = k
      · subst hk
        simp
      · simp [hk]

theorem keys_nodup (hsound : Sound t) (h : Placed t) (n : ℕ) :
    (((List.range n).flatMap t.buckets).map HashEntry.key).Nodup := by
  rw [List.map_flatMap, List.nodup_flatMap]
  refine ⟨fun i _ => hsound i, List.nodup_range.imp_of_mem fun {i j} _ _ hij => ?_⟩
  rw [Function.onFun_apply, List.disjoint_left]
  rintro k hi hj
  obtain ⟨e, he, rfl⟩ := List.mem_map.mp hi
  obtain ⟨f, hf, hkey⟩ := List.mem_map.mp hj
  exact hij ((h i e he).symm.trans (hkey ▸ h j f hf))

end Runs

end HashTableContents
