import SojebOS.Fat32UniqueNames

/-!
# Path texts and the way down the tree

A path text is parsed component by component. `Down` is the way from a directory to one
below it, by the slots it goes through: the tree has one such way to each directory.
-/
namespace Fat32PathText

open ByteMemory MachineWord WhileLoop LinkedChain
open Fat32Disk Fat32Directory Fat32Files Fat32Tree Fat32Layout Fat32Volume
open Fat32Entries Fat32Growth Fat32TreeGrowth Fat32Paths Fat32Removal
open Fat32TreeInvariant Fat32TreeRuns Fat32Links Fat32UniqueNames

def pathText (names : List (List UInt8)) : List UInt8 := names.flatMap (slash :: ·)

/-- A name that the parser takes in one piece. -/
structure Component (s : List UInt8) : Prop where
  no_slash : slash ∉ s
  no_nul : 0 ∉ s
  length_le : s.length ≤ 127

section Parsing

variable {fs : Fat32} {d : Bytes} {a n : ℕ} {s t path : List UInt8}
variable {names : List (List UInt8)}

theorem takeComponent_append (hs : slash ∉ s) (h0 : 0 ∉ s) (hn : s.length ≤ n)
    (ht : t = [] ∨ ∃ t', t = slash :: t') : takeComponent n (s ++ t) = (s, t) := by
  induction s generalizing n with
  | nil =>
    cases n with
    | zero => rfl
    | succ n =>
      rcases ht with rfl | ⟨t', rfl⟩
      · rfl
      · simp [takeComponent]
  | cons c s ih =>
    rw [List.mem_cons, not_or] at hs h0
    rw [List.length_cons] at hn
    obtain ⟨k, rfl⟩ : ∃ k, n = k + 1 := ⟨n - 1, by omega⟩
    have hc : ¬ (c = slash ∨ c = 0) := not_or.mpr ⟨fun h => hs.1 h.symm, fun h => h0.1 h.symm⟩
    rw [List.cons_append, takeComponent, if_neg hc, ih hs.2 h0.2 (by omega)]

theorem pathText_cons (s : List UInt8) (names : List (List UInt8)) :
    pathText (s :: names) = slash :: (s ++ pathText names) := rfl

theorem pathText_start (names : List (List UInt8)) :
    pathText names = [] ∨ ∃ t, pathText names = slash :: t := by
  cases names with
  | nil => exact .inl rfl
  | cons s names => exact .inr ⟨_, pathText_cons s names⟩

theorem followPath_slash (path : List UInt8) :
    followPath fs d (n + 1) a (slash :: path) = followPath fs d (n + 1) a path := by
  have hnext : getNextComponent (slash :: path) = getNextComponent path := by
    simp [getNextComponent]
  have hslash : ¬ (slash :: path).getD 0 0 = 0 := by
    change ¬ slash = 0
    decide
  rw [followPath, followPath, if_neg hslash, hnext]
  by_cases h0 : path.getD 0 0 = 0
  · have hempty : (getNextComponent path).1 = [] := by
      cases path with
      | nil => rfl
      | cons c path =>
        obtain rfl : c = 0 := h0
        have hne : ¬ (0 : UInt8) = slash := by decide
        simp [getNextComponent, takeComponent, hne]
    generalize getNextComponent path = g at hempty ⊢
    obtain ⟨component, rest⟩ := g
    rw [if_pos h0]
    exact if_pos hempty
  · rw [if_neg h0]

theorem followPath_component (hs : Component s) (hne : s ≠ []) :
    followPath fs d (n + 1) a (s ++ pathText names) =
      (findComponent fs d a s).bind fun found => match found with
        | none => some 0xFFFFFFFF
        | some next => followPath fs d n (if next = 0 then fs.rootCluster else next)
            (pathText names) := by
  obtain ⟨c, s, rfl⟩ := List.exists_cons_of_ne_nil hne
  have hc : c ≠ slash ∧ c ≠ 0 := by
    constructor
    · rintro rfl
      exact hs.no_slash List.mem_cons_self
    · rintro rfl
      exact hs.no_nul List.mem_cons_self
  have hfirst : ¬ (c :: s ++ pathText names).getD 0 0 = 0 := hc.2
  have hnext : getNextComponent (c :: s ++ pathText names) = (c :: s, pathText names) := by
    rw [getNextComponent, List.cons_append, List.dropWhile_cons_of_neg (by simpa using hc.1),
      ← List.cons_append]
    exact takeComponent_append hs.no_slash hs.no_nul hs.length_le (pathText_start names)
  rw [followPath, if_neg hfirst, hnext]
  simp only [reduceCtorEq, if_false, Option.bind_eq_bind]
  refine congrArg _ (funext fun found => ?_)
  cases found <;> rfl

end Parsing

/-- The way down from a directory through the slots `ps`. -/
inductive Down (fs : Fat32) (skip : ℕ → List UInt8 → Prop) (d : Bytes) :
    ℕ → List ℕ → ℕ → Prop where
  | nil {a} : Down fs skip d a [] a
  | cons {a p ps b} : Holds fs skip d a p → (readEntry d p).isDirectory →
      Down fs skip d (readEntry d p).firstCluster ps b → Down fs skip d a (p :: ps) b

section Ways

variable {fs : Fat32} {skip : ℕ → List UInt8 → Prop} {d : Bytes} {cwd a b c p : ℕ}
variable {ps qs : List ℕ}

theorem Down.append (h : Down fs skip d a ps b) (h' : Down fs skip d b qs c) :
    Down fs skip d a (ps ++ qs) c := by
  induction h with
  | nil => exact h'
  | cons hp hdir _ ih => exact .cons hp hdir (ih h')

theorem Down.split (h : Down fs skip d a (ps ++ qs) c) :
    ∃ b, Down fs skip d a ps b ∧ Down fs skip d b qs c := by
  induction ps generalizing a with
  | nil => exact ⟨a, .nil, h⟩
  | cons p ps ih =>
    cases h with
    | cons hp hdir h =>
      obtain ⟨b, hb, hc⟩ := ih h
      exact ⟨b, .cons hp hdir hb, hc⟩

theorem Down.last (h : Down fs skip d a (ps ++ [p]) c) :
    ∃ b, Down fs skip d a ps b ∧ Holds fs skip d b p ∧ (readEntry d p).isDirectory ∧
      (readEntry d p).firstCluster = c := by
  obtain ⟨b, hb, hc⟩ := h.split
  cases hc with
  | cons hp hdir hc =>
    cases hc
    exact ⟨b, hb, hp, hdir, rfl⟩

theorem Down.directory (h : Down fs skip d a ps b) (ha : Directory fs skip d a) :
    Directory fs skip d b := by
  induction h with
  | nil => exact ha
  | cons hp hdir _ ih => exact ih (ha.tail ⟨_, hp, hdir, rfl⟩)

theorem directory_down (ha : Directory fs skip d a) :
    ∃ ps, Down fs skip d fs.rootCluster ps a := by
  induction ha with
  | refl => exact ⟨[], .nil⟩
  | tail _ hs ih =>
    obtain ⟨ps, hps⟩ := ih
    obtain ⟨p, hp, hdir, rfl⟩ := hs
    exact ⟨ps ++ [p], hps.append (.cons hp hdir .nil)⟩

theorem holds_unique (hw : WellFormed fs skip d cwd) {q : ℕ} (ha : Directory fs skip d a)
    (hb : Directory fs skip d b) (hp : Holds fs skip d a p) (hq : Holds fs skip d b q)
    (hdir : (readEntry d p).isDirectory)
    (he : (readEntry d q).firstCluster = (readEntry d p).firstCluster) : p = q := by
  have hx : (Item.entry p).Present fs skip d := ⟨a, ha, hp⟩
  have hy : (Item.entry q).Present fs skip d := ⟨b, hb, hq⟩
  obtain ⟨l, hl⟩ := hw.directory_chain (.entry p) hx hdir
  cases hw.item_unique hx hy hl he
  rfl

theorem Down.unique (hw : WellFormed fs skip d cwd)
    (h : Down fs skip d fs.rootCluster ps c) (h' : Down fs skip d fs.rootCluster qs c) :
    ps = qs := by
  induction ps using List.reverseRecOn generalizing qs c with
  | nil =>
    cases h
    rcases List.eq_nil_or_concat qs with rfl | ⟨qs, q, rfl⟩
    · rfl
    · rw [List.concat_eq_append] at h'
      obtain ⟨b, hb, hq, hdir, he⟩ := h'.last
      exact absurd he (holds_ne_root hw (hb.directory .refl) hq hdir)
  | append_singleton ps p ih =>
    obtain ⟨a, ha, hp, hpd, he⟩ := h.last
    rcases List.eq_nil_or_concat qs with rfl | ⟨qs, q, rfl⟩
    · cases h'
      exact absurd he (holds_ne_root hw (ha.directory .refl) hp hpd)
    · rw [List.concat_eq_append] at h' ⊢
      obtain ⟨b, hb, hq, -, rfl⟩ := h'.last
      have hpq := holds_unique hw (ha.directory .refl) (hb.directory .refl) hp hq hpd he.symm
      subst hpq
      rw [slot_directory hw (ha.directory .refl) (hb.directory .refl) hp.slot hq.slot] at ha
      rw [ih ha hb]

end Ways

/-- What a run of `fat32_create_directory` and `fat32_cd` can type for a name. -/
structure Typed (name : List UInt8) : Prop where
  no_slash : slash ∉ name
  no_nul : 0 ∉ name
  not_dot : name ≠ [dot]
  not_dotDot : name ≠ [dot, dot]

def baseName (name : List UInt8) : List UInt8 := (name.take 8).filter (· ≠ space)

/-- A base name that begins at the first byte and has no space inside, and no extension. -/
def Plain (name : List UInt8) : Prop :=
  ∃ base, base ≠ [] ∧ space ∉ base ∧ base.length ≤ 8 ∧ name = pad 11 base

section Formats

variable {s name : List UInt8} {c : UInt8} {n : ℕ}

theorem toUpper_toUpper (c : UInt8) : toUpper (toUpper c) = toUpper c := by
  have hc := c.toNat_lt
  unfold toUpper
  by_cases h : 0x61 ≤ c ∧ c ≤ 0x7A
  · rw [if_pos h, if_neg]
    simp only [UInt8.le_iff_toNat_le] at h ⊢
    rw [UInt8.toNat_sub]
    simp at h ⊢
    omega
  · rw [if_neg h, if_neg h]

theorem copyName_mem (hc : c ∈ (copyName n s).1) :
    c ≠ dot ∧ c ≠ 0 ∧ toUpper c = c ∧ (slash ∉ s → c ≠ slash) := by
  induction n generalizing s with
  | zero => simp [copyName] at hc
  | succ n ih =>
    cases s with
    | nil => simp [copyName] at hc
    | cons x s =>
      simp only [copyName] at hc
      split_ifs at hc with hx
      · simp at hc
      · rw [not_or] at hx
        rcases List.mem_cons.mp hc with rfl | hc
        · refine ⟨?_, ?_, ?_, ?_⟩
          · rw [Ne, toUpper_eq_iff (by decide) (by decide)]
            exact hx.1
          · rw [Ne, toUpper_eq_iff (by decide) (by decide)]
            exact hx.2
          · exact toUpper_toUpper x
          · intro hs
            rw [Ne, toUpper_eq_iff (by decide) (by decide)]
            rintro rfl
            exact hs List.mem_cons_self
        · obtain ⟨h1, h2, h3, h4⟩ := ih hc
          exact ⟨h1, h2, h3, fun hs => h4 fun hm => hs (List.mem_cons_of_mem _ hm)⟩

/-- At most 8 characters that formatting keeps as they are. -/
structure Base (s : List UInt8) : Prop where
  length_le : s.length ≤ 8
  chars : ∀ c ∈ s, c ≠ dot ∧ c ≠ 0 ∧ toUpper c = c ∧ c ≠ slash
  no_space : space ∉ s

theorem Base.component (h : Base s) : Component s := by
  constructor
  · exact fun hm => (h.chars _ hm).2.2.2 rfl
  · exact fun hm => (h.chars _ hm).2.1 rfl
  · exact h.length_le.trans (by norm_num)

theorem copyName_base (hlen : s.length ≤ n)
    (hs : ∀ c ∈ s, c ≠ dot ∧ c ≠ 0 ∧ toUpper c = c ∧ c ≠ slash) : copyName n s = (s, []) := by
  induction s generalizing n with
  | nil => cases n <;> rfl
  | cons c s ih =>
    rw [List.length_cons] at hlen
    obtain ⟨k, rfl⟩ : ∃ k, n = k + 1 := ⟨n - 1, by omega⟩
    obtain ⟨h1, h2, h3, -⟩ := hs c List.mem_cons_self
    rw [copyName, if_neg (not_or.mpr ⟨h1, h2⟩), h3,
      ih (by omega) fun x hx => hs x (List.mem_cons_of_mem c hx)]

theorem formatFilename_base (h : Base s) : formatFilename s = pad 11 s := by
  have hfirst : s.getD 0 0 ≠ dot := by
    cases s with
    | nil => exact (by decide : (0 : UInt8) ≠ dot)
    | cons c s => exact (h.chars c List.mem_cons_self).1
  have hlen := h.length_le
  rw [formatFilename, if_neg fun hd => hfirst hd.1, if_neg fun hd => hfirst hd.1,
    copyName_base h.length_le h.chars]
  have hext : (if ([] : List UInt8).getD 0 0 = dot then copyExtension 3 [] else []) = [] := by
    decide
  simp only [List.tail_nil, hext, pad, List.append_assoc, List.length_nil, List.nil_append,
    List.replicate_append_replicate]
  congr 2
  omega

theorem formatFilename_base_head (h : Base s) : (formatFilename s).getD 0 0 ≠ dot := by
  rw [formatFilename_base h]
  cases s with
  | nil => exact (by decide : (pad 11 []).getD 0 0 ≠ dot)
  | cons c s => exact (h.chars c List.mem_cons_self).1

theorem not_formatted_as_link (h0 : 0 ∉ name) (hdot : name ≠ [dot]) (hdotDot : name ≠ [dot, dot]) :
    ¬ (name.getD 0 0 = dot ∧ name.getD 1 0 = 0) ∧
      ¬ (name.getD 0 0 = dot ∧ name.getD 1 0 = dot ∧ name.getD 2 0 = 0) := by
  constructor
  · rintro ⟨h1, h2⟩
    rcases name with _ | ⟨c, _ | ⟨c', t⟩⟩
    · exact absurd h1 (by decide)
    · exact hdot (congrArg (fun c => [c]) h1)
    · obtain rfl : c' = 0 := h2
      exact h0 (by simp)
  · rintro ⟨h1, h2, h3⟩
    rcases name with _ | ⟨c, _ | ⟨c', _ | ⟨c'', t⟩⟩⟩
    · exact absurd h1 (by decide)
    · exact absurd (show (0 : UInt8) = dot from h2) (by decide)
    · exact hdotDot (by rw [show c = dot from h1, show c' = dot from h2])
    · obtain rfl : c'' = 0 := h3
      exact h0 (by simp)

theorem formatFilename_typed (h : Typed name) : ∃ ext,
    formatFilename name = pad 8 (copyName 8 name).1 ++ ext := by
  obtain ⟨h1, h2⟩ := not_formatted_as_link h.no_nul h.not_dot h.not_dotDot
  rw [formatFilename, if_neg h1, if_neg h2]
  exact ⟨_, rfl⟩

theorem baseName_typed (h : Typed name) : Base (baseName (formatFilename name)) := by
  obtain ⟨ext, he⟩ := formatFilename_typed h
  have htake : (formatFilename name).take 8 = pad 8 (copyName 8 name).1 := by
    rw [he, List.take_left' (pad_length (copyName_length 8 name))]
  rw [baseName, htake]
  constructor
  · calc _ ≤ (pad 8 (copyName 8 name).1).length := List.length_filter_le _ _
      _ ≤ 8 := (pad_length (copyName_length 8 name)).le
  · intro c hc
    obtain ⟨hc, hsp⟩ := List.mem_filter.mp hc
    rcases List.mem_append.mp hc with hc | hc
    · obtain ⟨h1, h2, h3, h4⟩ := copyName_mem hc
      exact ⟨h1, h2, h3, h4 h.no_slash⟩
    · rw [List.eq_of_mem_replicate hc] at hsp
      simp at hsp
  · intro hm
    simpa using (List.mem_filter.mp hm).2

theorem plain_iff (h : Base (baseName name)) :
    Plain name ↔ baseName name ≠ [] ∧ formatFilename (baseName name) = name := by
  constructor
  · rintro ⟨base, hne, hsp, hlen, rfl⟩
    have hbase : baseName (pad 11 base) = base := by
      have htake : (pad 11 base).take 8 = base ++ List.replicate (8 - base.length) space := by
        rw [pad, List.take_append, List.take_of_length_le hlen, List.take_replicate]
        congr 2
        omega
      rw [baseName, htake, List.filter_append, List.filter_eq_self.mpr, List.filter_replicate]
      · simp
      · intro c hc
        have hne : c ≠ space := by
          rintro rfl
          exact hsp hc
        simpa using hne
    rw [hbase] at h ⊢
    exact ⟨hne, formatFilename_base h⟩
  · rintro ⟨hne, he⟩
    refine ⟨baseName name, hne, h.no_space, h.length_le, ?_⟩
    rw [← formatFilename_base h, he]

end Formats

end Fat32PathText
