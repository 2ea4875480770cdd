import SojebOS.Fat32PathText
import SojebOS.Fat32DirectoryWalks

/-!
# Path resolution composes

A path is resolved from left to right, and what has been resolved matters for the rest only by
the cluster it has led to. So a path is its first part and then the rest from there, wherever
it is cut at a slash. When the links of the FAT form no cycle every path is resolved or refused.
-/
namespace Fat32PathComposition

open ByteMemory MachineWord WhileLoop LinkedChain WalkCycles
open Fat32Disk Fat32Directory Fat32Files Fat32Tree Fat32Volume
open Fat32TreeGrowth Fat32PathText Fat32DirectoryWalks

/-- The rounds over the components of a path, as many as it can need. -/
def walkPath (fs : Fat32) (d : Bytes) (cluster : ℕ) (path : List UInt8) : Option ℕ :=
  followPath fs d (path.length + 1) cluster path

/-- Change to the directories of a list of paths in turn, as long as that succeeds. -/
def cdParts (fs : Fat32) (d : Bytes) : (currentDirCluster : ℕ) → List (List UInt8) → Option ℕ
  | cwd, [] => some cwd
  | cwd, part :: parts =>
    match fat32Cd fs d cwd part with
    | some (cwd', none) => cdParts fs d cwd' parts
    | _ => none

section Tokens

variable {n : ℕ} {s t : List UInt8}

theorem takeComponent_split (n : ℕ) (s : List UInt8) :
    (takeComponent n s).1 ++ (takeComponent n s).2 = s := by
  induction n generalizing s with
  | zero => rfl
  | succ n ih =>
    cases s with
    | nil => rfl
    | cons c s =>
      by_cases hc : c = slash ∨ c = 0
      · rw [takeComponent, if_pos hc, List.nil_append]
      · rw [takeComponent, if_neg hc]
        exact congrArg (c :: ·) (ih s)

theorem takeComponent_slash (n : ℕ) (s t : List UInt8) : takeComponent n (s ++ slash :: t) =
    ((takeComponent n s).1, (takeComponent n s).2 ++ slash :: t) := by
  induction n generalizing s with
  | zero => rfl
  | succ n ih =>
    cases s with
    | nil => simp only [List.nil_append, takeComponent, true_or, ↓reduceIte]
    | cons c s =>
      rw [List.cons_append]
      by_cases hc : c = slash ∨ c = 0
      · simp only [takeComponent, hc, ↓reduceIte, List.cons_append]
      · simp only [takeComponent, hc, ↓reduceIte, ih]

theorem getNextComponent_lt (h : (getNextComponent s).1 ≠ []) :
    (getNextComponent s).2.length < s.length := by
  have hsplit := congrArg List.length (takeComponent_split 127 (s.dropWhile (· = slash)))
  have hdrop := (List.dropWhile_sublist (p := (· = slash)) (l := s)).length_le
  have hpos := List.length_pos_of_ne_nil h
  rw [List.length_append] at hsplit
  rw [getNextComponent] at hpos ⊢
  omega

theorem dropWhile_of_no_component (h0 : 0 ∉ s) (h : (getNextComponent s).1 = []) :
    s.dropWhile (· = slash) = [] := by
  rw [getNextComponent] at h
  cases hs : s.dropWhile (· = slash) with
  | nil => rfl
  | cons c t =>
    have hc : ¬ (c = slash ∨ c = 0) := by
      rintro (rfl | rfl)
      · have hhead := List.head_dropWhile_not (· = slash) (l := s) (by rw [hs]; simp)
        simp [hs] at hhead
      · exact h0 ((List.dropWhile_sublist _).mem (hs ▸ List.mem_cons_self))
    rw [hs, takeComponent, if_neg hc] at h
    exact absurd h (List.cons_ne_nil _ _)

theorem getNextComponent_slash (h : (getNextComponent s).1 ≠ []) (t : List UInt8) :
    getNextComponent (s ++ slash :: t) =
      ((getNextComponent s).1, (getNextComponent s).2 ++ slash :: t) := by
  have hne : s.dropWhile (· = slash) ≠ [] := by
    intro hnil
    rw [getNextComponent, hnil] at h
    exact h rfl
  rw [getNextComponent, getNextComponent, List.dropWhile_append,
    if_neg (by simpa using hne), takeComponent_slash]

end Tokens

section Paths

variable {fs : Fat32} {d : Bytes} {a b n m : ℕ} {s t : List UInt8}

theorem followPath_enough (hn : s.length < n) (hm : s.length < m) :
    followPath fs d n a s = followPath fs d m a s := by
  induction n generalizing m a s with
  | zero => exact absurd hn (Nat.not_lt_zero _)
  | succ n ih =>
    obtain ⟨k, rfl⟩ : ∃ k, m = k + 1 := ⟨m - 1, by omega⟩
    rw [followPath, followPath]
    by_cases h0 : s.getD 0 0 = 0
    · rw [if_pos h0, if_pos h0]
    rw [if_neg h0, if_neg h0]
    by_cases hc : (getNextComponent s).1 = []
    · simp only [hc, ↓reduceIte]
    · have hlt := getNextComponent_lt hc
      simp only [hc, ↓reduceIte, Option.bind_eq_bind]
      refine congrArg _ (funext fun found => ?_)
      cases found with
      | none => rfl
      | some next => exact ih (by omega) (by omega)

theorem followPath_eq_walkPath (hn : s.length < n) : followPath fs d n a s = walkPath fs d a s :=
  followPath_enough hn (Nat.lt_succ_self _)

theorem walkPath_nil : walkPath fs d a [] = some a := rfl

theorem walkPath_end (h : (getNextComponent s).1 = []) : walkPath fs d a s = some a := by
  rw [walkPath, followPath]
  by_cases h0 : s.getD 0 0 = 0
  · rw [if_pos h0]
  · rw [if_neg h0]
    simp only [h, ↓reduceIte]

theorem walkPath_next (h : (getNextComponent s).1 ≠ []) : walkPath fs d a s =
    (findComponent fs d a (getNextComponent s).1).bind fun found => match found with
      | none => some 0xFFFFFFFF
      | some next => walkPath fs d (if next = 0 then fs.rootCluster else next)
          (getNextComponent s).2 := by
  have h0 : s.getD 0 0 ≠ 0 := by
    intro h0
    apply h
    cases s with
    | nil => rfl
    | cons c s =>
      obtain rfl : c = 0 := h0
      have hne : ¬ (0 : UInt8) = slash := by decide
      simp [getNextComponent, takeComponent, hne]
  rw [walkPath, followPath, if_neg h0]
  simp only [h, ↓reduceIte, Option.bind_eq_bind]
  refine congrArg _ (funext fun found => ?_)
  cases found with
  | none => rfl
  | some next => exact followPath_eq_walkPath (getNextComponent_lt h)

theorem walkPath_slash (s : List UInt8) : walkPath fs d a (slash :: s) = walkPath fs d a s := by
  rw [walkPath, followPath_slash, followPath_eq_walkPath]
  rw [List.length_cons]
  omega

theorem walkPath_slashes (s : List UInt8) :
    walkPath fs d a (s.dropWhile (· = slash)) = walkPath fs d a s := by
  induction s with
  | nil => rfl
  | cons c s ih =>
    by_cases hc : c = slash
    · rw [List.dropWhile_cons_of_pos (by simpa using hc), hc, walkPath_slash, ih]
    · rw [List.dropWhile_cons_of_neg (by simpa using hc)]

theorem walkPath_offChain (s : List UInt8) :
    walkPath fs d 0xFFFFFFFF s = some 0xFFFFFFFF := by
  by_cases h : (getNextComponent s).1 = []
  · exact walkPath_end h
  · have hoff : offChain 0xFFFFFFFF := by decide
    have hfind : findComponent fs d 0xFFFFFFFF (getNextComponent s).1 = some none :=
      run_leave (by simp only [walkBody, hoff, ↓reduceIte]) _
    rw [walkPath_next h, hfind]
    rfl

/-- A path may be cut at a slash. -/
theorem walkPath_append (h0 : 0 ∉ s) (t : List UInt8) : walkPath fs d a (s ++ slash :: t) =
    (walkPath fs d a s).bind fun b => walkPath fs d b t := by
  induction hlen : s.length using Nat.strongRecOn generalizing s a with
  | ind n ih =>
    by_cases hc : (getNextComponent s).1 = []
    · have hdrop : (s ++ slash :: t).dropWhile (· = slash) = t.dropWhile (· = slash) := by
        rw [List.dropWhile_append, if_pos (by simpa using dropWhile_of_no_component h0 hc),
          List.dropWhile_cons_of_pos (by simp)]
      rw [walkPath_end hc, Option.bind_some, ← walkPath_slashes, hdrop, walkPath_slashes]
    · have hnext := getNextComponent_slash hc t
      have hc' : (getNextComponent (s ++ slash :: t)).1 ≠ [] := by rwa [hnext]
      have hrest : 0 ∉ (getNextComponent s).2 := by
        intro hm
        have hsplit := takeComponent_split 127 (s.dropWhile (· = slash))
        apply h0
        apply (List.dropWhile_sublist (· = slash)).mem
        rw [← hsplit]
        exact List.mem_append_right _ hm
      rw [walkPath_next hc', walkPath_next hc, hnext, Option.bind_assoc]
      refine congrArg _ (funext fun found => ?_)
      cases found with
      | none => exact (walkPath_offChain t).symm
      | some next => exact ih _ (hlen ▸ getNextComponent_lt hc) hrest rfl

theorem walkPath_ends (h : Acyclic (fat32NextCluster fs d) offChain) (a : ℕ) (s : List UInt8) :
    ∃ b, walkPath fs d a s = some b := by
  induction hlen : s.length using Nat.strongRecOn generalizing s a with
  | ind n ih =>
    by_cases hc : (getNextComponent s).1 = []
    · exact ⟨a, walkPath_end hc⟩
    · rw [walkPath_next hc]
      cases hfound : findComponent fs d a (getNextComponent s).1 with
      | none => exact absurd ((walk_none_iff_goesRound le_rfl).mp hfound) h.not_circles
      | some found =>
        cases found with
        | none => exact ⟨0xFFFFFFFF, rfl⟩
        | some next => exact ih _ (hlen ▸ getNextComponent_lt hc) _ _ rfl

def startCluster (fs : Fat32) (cwd : ℕ) (path : List UInt8) : ℕ :=
  if path.getD 0 0 = slash then fs.rootCluster else cwd

theorem getPathCluster_eq (cwd : ℕ) (path : List UInt8) :
    fat32GetPathCluster fs d cwd path = walkPath fs d (startCluster fs cwd path) path := by
  rw [fat32GetPathCluster, startCluster]
  by_cases hslash : path.getD 0 0 = slash
  · cases path with
    | nil => exact absurd hslash (by decide)
    | cons c path =>
      have hc : c = slash := hslash
      rw [if_pos hslash, if_pos hslash, hc, walkPath_slash, List.tail_cons, followPath_eq_walkPath]
      rw [List.length_cons]
      omega
  · rw [if_neg hslash, if_neg hslash]
    rfl

theorem startCluster_append (cwd : ℕ) (hs : s ≠ []) (t : List UInt8) :
    startCluster fs cwd (s ++ t) = startCluster fs cwd s := by
  cases s with
  | nil => exact absurd rfl hs
  | cons c s => rfl

theorem getPathCluster_append (cwd : ℕ) (hs : s ≠ []) (h0 : 0 ∉ s) (t : List UInt8) :
    fat32GetPathCluster fs d cwd (s ++ slash :: t) =
      (fat32GetPathCluster fs d cwd s).bind fun b => walkPath fs d b t := by
  rw [getPathCluster_eq, getPathCluster_eq, startCluster_append cwd hs, walkPath_append h0]

theorem getPathCluster_relative (cwd : ℕ) (t : List UInt8) :
    fat32GetPathCluster fs d cwd (t.dropWhile (· = slash)) = walkPath fs d cwd t := by
  have hstart : startCluster fs cwd (t.dropWhile (· = slash)) = cwd := by
    refine if_neg fun hslash => ?_
    cases ht : t.dropWhile (· = slash) with
    | nil =>
      rw [ht] at hslash
      exact absurd hslash (by decide)
    | cons c t' =>
      have hhead := List.head_dropWhile_not (· = slash) (l := t) (by rw [ht]; simp)
      rw [ht] at hslash
      obtain rfl : c = slash := hslash
      simp [ht] at hhead
  rw [getPathCluster_eq, hstart, walkPath_slashes]

theorem walkPath_replicate (fs : Fat32) (d : Bytes) (a k : ℕ) (t : List UInt8) :
    walkPath fs d a (List.replicate k slash ++ t) = walkPath fs d a t := by
  induction k with
  | zero => rfl
  | succ k ih => rw [List.replicate_succ, List.cons_append, walkPath_slash, ih]

theorem getPathCluster_repeated (cwd : ℕ) (h0 : 0 ∉ s) (k : ℕ) (t : List UInt8) :
    fat32GetPathCluster fs d cwd (s ++ slash :: (List.replicate k slash ++ t)) =
      fat32GetPathCluster fs d cwd (s ++ slash :: t) := by
  by_cases hs : s = []
  · rw [hs, List.nil_append, List.nil_append, getPathCluster_eq, getPathCluster_eq,
      walkPath_slash, walkPath_slash, walkPath_replicate]
    rfl
  · rw [getPathCluster_append cwd hs h0, getPathCluster_append cwd hs h0]
    exact congrArg _ (funext fun b => walkPath_replicate fs d b k t)

theorem getPathCluster_trailing (cwd : ℕ) (hs : s ≠ []) (h0 : 0 ∉ s) (k : ℕ) :
    fat32GetPathCluster fs d cwd (s ++ List.replicate k slash) =
      fat32GetPathCluster fs d cwd s := by
  cases k with
  | zero => rw [List.replicate_zero, List.append_nil]
  | succ k =>
    have hend : ∀ b, walkPath fs d b (List.replicate k slash) = some b := by
      intro b
      have hslashes := walkPath_replicate fs d b k []
      rwa [List.append_nil, walkPath_nil] at hslashes
    rw [List.replicate_succ, getPathCluster_append cwd hs h0]
    simp only [hend, Option.bind_fun_some]

theorem cd_success {cwd c : ℕ} (h : fat32Cd fs d cwd s = some (c, none)) :
    fat32GetPathCluster fs d cwd s = some c ∧ c ≠ 0xFFFFFFFF := by
  rw [fat32Cd, Option.bind_eq_bind, Option.bind_eq_some_iff] at h
  obtain ⟨target, htarget, hcd⟩ := h
  by_cases hbad : target = 0xFFFFFFFF
  · simp [hbad] at hcd
  · simp only [hbad, ↓reduceIte] at hcd
    cases hcd
    exact ⟨htarget, hbad⟩

theorem cd_of_resolved {cwd c : ℕ} (h : fat32GetPathCluster fs d cwd s = some c)
    (hc : c ≠ 0xFFFFFFFF) : fat32Cd fs d cwd s = some (c, none) := by
  rw [fat32Cd, h, Option.bind_eq_bind, Option.bind_some]
  exact if_neg hc

theorem cdParts_cons {cwd c : ℕ} {part : List UInt8} {parts : List (List UInt8)} :
    cdParts fs d cwd (part :: parts) = some c ↔
      ∃ b, fat32Cd fs d cwd part = some (b, none) ∧ cdParts fs d b parts = some c := by
  rw [cdParts]
  cases hcd : fat32Cd fs d cwd part with
  | none => simp
  | some r =>
    obtain ⟨b, reply⟩ := r
    cases reply <;> simp

theorem pathText_slash_free {t : List UInt8} (ht : slash ∉ t) : t.dropWhile (· = slash) = t := by
  cases t with
  | nil => rfl
  | cons c t =>
    rw [List.dropWhile_cons_of_neg]
    rw [decide_eq_true_eq]
    rintro rfl
    exact ht List.mem_cons_self

theorem cd_of_parts {cwd c : ℕ} (hs : s ≠ []) (h0 : 0 ∉ s) (parts : List (List UInt8))
    (hparts : ∀ part ∈ parts, slash ∉ part ∧ 0 ∉ part)
    (h : cdParts fs d cwd (s :: parts) = some c) :
    fat32Cd fs d cwd (s ++ pathText parts) = some (c, none) := by
  obtain ⟨b, hcd, hrest⟩ := cdParts_cons.mp h
  clear h
  induction parts generalizing s b with
  | nil =>
    obtain rfl : b = c := Option.some.inj hrest
    rw [pathText, List.flatMap_nil, List.append_nil]
    exact hcd
  | cons part parts ih =>
    obtain ⟨⟨hslash, hnul⟩, hparts⟩ := List.forall_mem_cons.mp hparts
    obtain ⟨e, hpart, hrest⟩ := cdParts_cons.mp hrest
    obtain ⟨hresolved, -⟩ := cd_success hcd
    obtain ⟨hnext, he⟩ := cd_success hpart
    rw [← pathText_slash_free hslash, getPathCluster_relative] at hnext
    have hstep : fat32Cd fs d cwd (s ++ slash :: part) = some (e, none) := by
      refine cd_of_resolved ?_ he
      rw [getPathCluster_append cwd hs h0, hresolved]
      exact hnext
    have htext : s ++ pathText (part :: parts) = (s ++ slash :: part) ++ pathText parts := by
      rw [pathText_cons, List.append_assoc, List.cons_append]
    rw [htext]
    refine ih (by simp) ?_ hparts e hstep hrest
    rw [List.mem_append, List.mem_cons]
    rintro (hm | hm | hm)
    · exact h0 hm
    · exact absurd hm (by decide)
    · exact hnul hm

/-- Resolving `p/q` is resolving `p` and from there `q` without its leading slashes. -/
theorem path_resolution_composes (fs : Fat32) (d : Bytes)
    (hacyclic : Acyclic (fat32NextCluster fs d) offChain) (cwd : ℕ) (p q : List UInt8)
    (hp : p ≠ []) (h0 : 0 ∉ p) :
    (∃ r, fat32GetPathCluster fs d cwd p = some r ∧
      fat32GetPathCluster fs d cwd (p ++ slash :: q) =
        if r = 0xFFFFFFFF then some 0xFFFFFFFF
        else fat32GetPathCluster fs d r (q.dropWhile (· = slash))) ∧
    (∀ s, 0 ∉ s → ∀ k, fat32GetPathCluster fs d cwd
        (s ++ slash :: (List.replicate k slash ++ q)) =
      fat32GetPathCluster fs d cwd (s ++ slash :: q)) ∧
    (∀ k, fat32GetPathCluster fs d cwd (p ++ List.replicate k slash) =
      fat32GetPathCluster fs d cwd p) ∧
    ∀ parts c, (∀ part ∈ parts, slash ∉ part ∧ 0 ∉ part) →
      cdParts fs d cwd (p :: parts) = some c →
        fat32Cd fs d cwd (p ++ pathText parts) = some (c, none) := by
  refine ⟨?_, fun s hs k => getPathCluster_repeated cwd hs k q,
    getPathCluster_trailing cwd hp h0, fun parts c => cd_of_parts hp h0 parts⟩
  obtain ⟨r, hr⟩ := walkPath_ends hacyclic (startCluster fs cwd p) p
  rw [← getPathCluster_eq] at hr
  refine ⟨r, hr, ?_⟩
  rw [getPathCluster_append cwd hp h0, hr, Option.bind_some, getPathCluster_relative]
  by_cases hbad : r = 0xFFFFFFFF
  · rw [if_pos hbad, hbad, walkPath_offChain]
  · rw [if_neg hbad]

/-- Where all bytes from 2048 on are zero and every link before them leads there, or to a link
that leads out, no chain has more than two links. -/
theorem acyclic_of_short {d : Bytes} (hzero : ∀ x, 2048 ≤ x → d x = 0)
    (hshort : ∀ c ∈ List.range 384, 384 ≤ fat32NextCluster tinyVolume d c ∨
      offChain (fat32NextCluster tinyVolume d (fat32NextCluster tinyVolume d c))) :
    Acyclic (fat32NextCluster tinyVolume d) offChain := by
  have hfar : ∀ c, ¬ offChain c → 384 ≤ c → offChain (fat32NextCluster tinyVolume d c) := by
    intro c hc hle
    have hlt := (not_not.mp hc).2
    have haddr : 2048 ≤ Fat32Layout.linkAddr tinyVolume c := by
      have hsector : u32 (1 + c / 128) = 1 + c / 128 := u32_of_lt (by omega)
      simp only [Fat32Layout.linkAddr, tinyVolume, hsector]
      omega
    have hlink : load32 d (Fat32Layout.linkAddr tinyVolume c) = 0 := by
      rw [load32, hzero _ haddr, hzero _ (by omega), hzero _ (by omega), hzero _ (by omega)]
      rfl
    rw [Fat32Layout.nextCluster_linkAddr (by omega), hlink]
    decide
  -- the rank is the number of links that can still be followed
  refine acyclic_of_rank (fun c => if offChain c then 0
    else if offChain (fat32NextCluster tinyVolume d c) then 1 else 2) ?_
  intro c hc
  rw [if_neg hc]
  by_cases hnext : offChain (fat32NextCluster tinyVolume d c)
  · rw [if_pos hnext, if_pos hnext]
    exact Nat.zero_lt_one
  · have hlast : offChain (fat32NextCluster tinyVolume d (fat32NextCluster tinyVolume d c)) := by
      have hlt : c < 384 := by
        by_contra hle
        exact hnext (hfar c hc (Nat.le_of_not_lt hle))
      exact (hshort c (List.mem_range.mpr hlt)).elim (hfar _ hnext) id
    rw [if_neg hnext, if_pos hlast, if_neg hnext]
    exact Nat.one_lt_two

theorem added_tail {d : Bytes} {l pre post : List ℕ} {x : ℕ}
    (h : Adds tinyVolume dotEntry blankDisk d 2 l pre 1024 post [3]) (hx : 2048 ≤ x) :
    d x = 0 := by
  have hterritory : x ∉ Fat32Layout.territories tinyVolume [3] := by
    rintro ⟨c, hc, hm⟩
    rw [List.mem_singleton.mp hc, Fat32Layout.territory, Set.mem_union, Fat32Layout.cell,
      Fat32Layout.dataArea, Set.mem_Ico, Set.mem_Ico] at hm
    have hcell : Fat32Layout.cellAddr tinyVolume 3 = 524 := by decide
    have hcluster : Fat32Layout.clusterAddr tinyVolume 3 = 1536 := by decide
    have hbytes : Fat32Files.bytesPerCluster tinyVolume = 512 := by decide
    omega
  have hslot : ∀ p ∈ some 1024, x ∉ slotBytes p := by
    rintro p ⟨⟩ hm
    have hlt := (Set.mem_Ico.mp hm).2
    omega
  rw [h.grown.frame x hterritory hslot]
  exact if_neg (by omega)

theorem oneDirectory_acyclic : Acyclic (fat32NextCluster tinyVolume oneDirectory) offChain :=
  acyclic_of_short (fun _ => added_tail oneDirectory_adds) (by decide +kernel)

/-- Down into the directory and back. -/
theorem path_resolution_composes_oneDirectory :
    (∃ r, fat32GetPathCluster tinyVolume oneDirectory 2 [0x44] = some r ∧
      fat32GetPathCluster tinyVolume oneDirectory 2 ([0x44] ++ slash :: [dot, dot]) =
        if r = 0xFFFFFFFF then some 0xFFFFFFFF
        else fat32GetPathCluster tinyVolume oneDirectory r ([dot, dot].dropWhile (· = slash))) ∧
    (∀ s, 0 ∉ s → ∀ k, fat32GetPathCluster tinyVolume oneDirectory 2
        (s ++ slash :: (List.replicate k slash ++ [dot, dot])) =
      fat32GetPathCluster tinyVolume oneDirectory 2 (s ++ slash :: [dot, dot])) ∧
    (∀ k, fat32GetPathCluster tinyVolume oneDirectory 2 ([0x44] ++ List.replicate k slash) =
      fat32GetPathCluster tinyVolume oneDirectory 2 [0x44]) ∧
    ∀ parts c, (∀ part ∈ parts, slash ∉ part ∧ 0 ∉ part) →
      cdParts tinyVolume oneDirectory 2 ([0x44] :: parts) = some c →
        fat32Cd tinyVolume oneDirectory 2 ([0x44] ++ pathText parts) = some (c, none) :=
  path_resolution_composes tinyVolume oneDirectory oneDirectory_acyclic 2 [0x44] [dot, dot]
    (by decide) (by decide)

end Paths

end Fat32PathComposition
