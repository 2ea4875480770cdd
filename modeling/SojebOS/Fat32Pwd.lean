import Mathlib.Data.List.TakeWhile
import SojebOS.Fat32PathText

/-!
# `fat32_pwd` against `fat32_cd`

`fat32_pwd` climbs at most 16 `..` links and prints the base names on the way back down;
the path parser formats each name again and searches for it. The two agree when the way is
short enough and every name on it is its own base name.
-/
namespace Fat32Pwd

open ByteMemory MachineWord WhileLoop LinkedChain
open Fat32Disk Fat32Directory Fat32Files Fat32Tree Fat32Layout Fat32Volume
open Fat32Entries Fat32Growth Fat32TreeGrowth Fat32Paths Fat32Removal
open Fat32TreeInvariant Fat32TreeRuns Fat32Links Fat32UniqueNames Fat32PathText

structure EmptyVolume (fs : Fat32) (d : Bytes) : Prop where
  geometry : Geometry fs
  root : ∃ l, Chain fs d fs.rootCluster l ∧ ∀ p ∈ slots fs l, d p = 0

def AllowedCall : TreeCall → Prop
  | .createDirectory dirname => Typed dirname
  | .cd _ => True

def AllowedRun (fs : Fat32) : Bytes × ℕ → Bytes × ℕ → Prop :=
  Relation.ReflTransGen fun s t => ∃ call : TreeCall, AllowedCall call ∧ call.step fs s = some t

/-- The path that is printed leads back to the current directory. -/
def PwdAgrees (fs : Fat32) (d : Bytes) (cwd : ℕ) : Prop :=
  ∃ path, fat32Pwd fs d cwd = some (.ok (path ++ [newline])) ∧
    fat32GetPathCluster fs d cwd path = some cwd

/-- At most 16 entries lead from the root to the directory, and their names are plain. -/
def PlainWay (fs : Fat32) (d : Bytes) (cwd : ℕ) : Prop :=
  ∃ ps, Down fs (linkEntry fs) d fs.rootCluster ps cwd ∧ ps.length ≤ 16 ∧
    ∀ p ∈ ps, Plain (readEntry d p).name

/-- The way is longer than that, and the root directory is full to the end of its chain, so
that the search for a name runs past the chain. -/
def LeavesRoot (fs : Fat32) (d : Bytes) (cwd : ℕ) : Prop :=
  (∃ ps, Down fs (linkEntry fs) d fs.rootCluster ps cwd ∧ 16 < ps.length) ∧
    ∀ p, SlotOf fs d fs.rootCluster p → d p ≠ 0

structure TypedTree (fs : Fat32) (d : Bytes) (cwd : ℕ) : Prop where
  tree : TreeInvariant fs d cwd
  unique : UniqueIn fs (linkEntry fs) d
  typed : ∀ a p, Directory fs (linkEntry fs) d a → Holds fs (linkEntry fs) d a p →
    ∃ name, Typed name ∧ (readEntry d p).name = formatFilename name

section Runs

variable {fs : Fat32} {d d' : Bytes} {cwd : ℕ} {s t : Bytes × ℕ} {name : List UInt8}

theorem typedTree_of_empty (h : EmptyVolume fs d) : TypedTree fs d fs.rootCluster := by
  obtain ⟨hg, l, hl, h0⟩ := h
  have hdead : ∀ a p, Directory fs (linkEntry fs) d a → SlotOf fs d a p → ¬ Named d p := by
    intro a p ha hp hn
    rw [directory_of_empty_root hl h0 ha] at hp
    exact hn.live.1 (h0 p (hp.mem hl))
  constructor
  · exact treeInvariant_of_empty_root hg hl h0
  · intro a p q ha hp _ hn
    exact absurd hn (hdead a p ha hp)
  · intro a p ha hp
    exact absurd hp.named (hdead a p ha hp.slot)

theorem createDirectory_typed (h : TypedTree fs d cwd) {reply : Option Reply}
    (hname : Typed name) (hrun : fat32CreateDirectory fs d cwd name = some (d', reply)) :
    TypedTree fs d' cwd := by
  have hw := h.tree.wellFormed
  have htree := createDirectory_tree h.tree hrun
  constructor
  · exact htree
  · have hn : NamedTree fs d' cwd :=
      createDirectory_named ⟨_, TreeInvariant.linkedTree h.tree, h.unique⟩ hrun
    obtain ⟨skip, ht, hu⟩ := hn
    apply (uniqueNames_iff (TreeInvariant.linkedTree htree)).mp
    exact (uniqueNames_iff ht).mpr hu
  · rcases createDirectory_spec hw hrun with
      rfl | ⟨-, c, l, pre, p, post, hc, hl, hs, hp, hpre, rfl⟩
    · exact h.typed
    have hroot := hw.free_ne_root hc
    have hadd : Adds fs (linkEntry fs) d (directoryRecorded fs d cwd c p name) cwd l pre p post
        [c] :=
      directoryRecorded_adds hw hc hl hs hp hpre ⟨⟨hroot, .inl rfl⟩, ⟨hroot, .inr rfl⟩⟩ name
    intro a q ha hq
    by_cases hne : q = p
    · refine ⟨name, hname, ?_⟩
      rw [hne]
      exact readEntry_fillEntry_name (formatFilename_length name)
    · rcases hadd.directory_new hw ha with hold | ⟨-, hpd, rfl⟩
      · have hqo := (hadd.holds_iff hw hold hne).mp hq
        obtain ⟨n, hn, he⟩ := h.typed a q hold hqo
        exact ⟨n, hn, (congrArg _ (readEntry_congr (hadd.slot_kept hw.geometry hqo.slot hne))).trans
          he⟩
      · exact absurd hq (hadd.leaf_holds hpd)

theorem allowed_step_typed {call : TreeCall} (h : TypedTree fs s.1 s.2)
    (hcall : AllowedCall call) (hs : call.step fs s = some t) : TypedTree fs t.1 t.2 := by
  cases call with
  | createDirectory dirname =>
    obtain ⟨⟨d', reply⟩, hrun, rfl⟩ := Option.map_eq_some_iff.mp hs
    exact createDirectory_typed h hcall hrun
  | cd path =>
    obtain ⟨⟨cwd', reply⟩, hrun, rfl⟩ := Option.map_eq_some_iff.mp hs
    exact ⟨cd_tree h.tree hrun, h.unique, h.typed⟩

theorem allowedRun_typed (h : TypedTree fs s.1 s.2) (hr : AllowedRun fs s t) :
    TypedTree fs t.1 t.2 := by
  induction hr with
  | refl => exact h
  | tail _ hs ih =>
    obtain ⟨call, hcall, hs⟩ := hs
    exact allowed_step_typed ih hcall hs

end Runs

def slotBase (d : Bytes) (p : ℕ) : List UInt8 := baseName (readEntry d p).name

def slotCluster (d : Bytes) (p : ℕ) : ℕ := (readEntry d p).firstCluster

section Descending

variable {fs : Fat32} {d : Bytes} {cwd a b c p n r : ℕ} {ps : List ℕ}
variable {s : List UInt8} {names : List (List UInt8)}

theorem TypedTree.base (h : TypedTree fs d cwd) (ha : Directory fs (linkEntry fs) d a)
    (hp : Holds fs (linkEntry fs) d a p) : Base (slotBase d p) := by
  obtain ⟨name, hn, he⟩ := h.typed a p ha hp
  rw [slotBase, he]
  exact baseName_typed hn

theorem findComponent_found (h : TypedTree fs d cwd) (ha : Directory fs (linkEntry fs) d a)
    (hp : Holds fs (linkEntry fs) d a p) (hdir : (readEntry d p).isDirectory)
    (hs : formatFilename s = (readEntry d p).name) :
    findComponent fs d a s = some (some (slotCluster d p)) := by
  have hw := h.tree.wellFormed
  obtain ⟨l, hl⟩ := hw.chain ha
  rw [findComponent_eq hw.geometry hl (hw.zero_tail a l ha hl)]
  have hsel : selectDirectory d (formatFilename s) p = some (slotCluster d p) :=
    if_pos ⟨hp.named.live, ⟨hp.named.short, hs.symm⟩, hdir⟩
  cases hv : (slots fs l).findSome? (selectDirectory d (formatFilename s)) with
  | none =>
    have hn := List.findSome?_eq_none_iff.mp hv p (hp.slot.mem hl)
    rw [hsel] at hn
    cases hn
  | some c =>
    obtain ⟨q, hq, hqs⟩ := List.exists_of_findSome?_eq_some hv
    unfold selectDirectory at hqs
    split_ifs at hqs with hm
    have hqp : q = p := h.unique a q p ha ⟨l, hl, hq⟩ hp.slot ⟨hm.1, hm.2.1.1⟩ hp.named
      (hm.2.1.2.trans hs)
    rw [← hqs, hqp]
    rfl

theorem findComponent_holds (h : TypedTree fs d cwd) (ha : Directory fs (linkEntry fs) d a)
    (hs : (formatFilename s).getD 0 0 ≠ dot) (hf : findComponent fs d a s = some (some c)) :
    ∃ p, Holds fs (linkEntry fs) d a p ∧ (readEntry d p).isDirectory ∧
      (readEntry d p).name = formatFilename s ∧ (readEntry d p).firstCluster = c := by
  have hw := h.tree.wellFormed
  obtain ⟨l, hl⟩ := hw.chain ha
  rw [findComponent_eq hw.geometry hl (hw.zero_tail a l ha hl)] at hf
  obtain ⟨p, hp, hsel⟩ := List.exists_of_findSome?_eq_some (Option.some.inj hf)
  unfold selectDirectory at hsel
  split_ifs at hsel with hm
  refine ⟨p, ⟨⟨l, hl, hp⟩, ⟨hm.1, hm.2.1.1⟩, ?_⟩, hm.2.2, hm.2.1.2, Option.some.inj hsel⟩
  rw [hm.2.1.2]
  rintro ⟨-, he | he⟩
  · rw [he] at hs
    exact hs rfl
  · rw [he] at hs
    exact hs rfl

theorem followPath_down (h : TypedTree fs d cwd) (ha : Directory fs (linkEntry fs) d a)
    (hd : Down fs (linkEntry fs) d a ps b) (hn : ps.length < n)
    (hplain : ∀ p ∈ ps, Plain (readEntry d p).name) :
    followPath fs d n a (pathText (ps.map (slotBase d))) = some b := by
  induction hd generalizing n with
  | nil =>
    obtain ⟨k, rfl⟩ : ∃ k, n = k + 1 := ⟨n - 1, by simp at hn; omega⟩
    rfl
  | @cons a p ps b hp hdir _ ih =>
    rw [List.length_cons] at hn
    obtain ⟨k, rfl⟩ : ∃ k, n = k + 1 := ⟨n - 1, by omega⟩
    have hbase := h.base ha hp
    have hp' := (plain_iff hbase).mp (hplain p List.mem_cons_self)
    have hne : slotBase d p ≠ [] := hp'.1
    have hfmt : formatFilename (slotBase d p) = (readEntry d p).name := hp'.2
    obtain ⟨ht, hdc⟩ := target_of_holds h.tree.wellFormed ha hp hdir
    have hnext : (if slotCluster d p = 0 then fs.rootCluster else slotCluster d p) =
        (readEntry d p).firstCluster := ht
    rw [List.map_cons, pathText_cons, followPath_slash,
      followPath_component hbase.component hne, findComponent_found h ha hp hdir hfmt,
      Option.bind_some]
    simp only [hnext]
    exact ih hdc (Nat.lt_of_succ_lt_succ hn) fun q hq => hplain q (List.mem_cons_of_mem p hq)

theorem down_of_followPath (h : TypedTree fs d cwd) (ha : Directory fs (linkEntry fs) d a)
    (hnames : ∀ s ∈ names, Base s)
    (hf : followPath fs d n a (pathText names) = some r) (hr : r ≠ 0xFFFFFFFF) :
    ∃ ps, Down fs (linkEntry fs) d a ps r ∧
      ps.map (fun p => (readEntry d p).name) =
        (names.filter (· ≠ [])).map formatFilename := by
  induction names generalizing n a with
  | nil =>
    cases n with
    | zero => cases hf
    | succ n =>
      cases hf
      exact ⟨[], .nil, rfl⟩
  | cons s names ih =>
    have hbase := hnames s List.mem_cons_self
    have hrest : ∀ s ∈ names, Base s := fun s hs => hnames s (List.mem_cons_of_mem _ hs)
    cases n with
    | zero => cases hf
    | succ n =>
      rw [pathText_cons, followPath_slash] at hf
      by_cases hne : s = []
      · subst hne
        obtain ⟨ps, hps, he⟩ := ih ha hrest hf
        exact ⟨ps, hps, by simpa using he⟩
      · rw [followPath_component hbase.component hne] at hf
        cases hc : findComponent fs d a s with
        | none =>
          rw [hc] at hf
          cases hf
        | some found =>
          rw [hc, Option.bind_some] at hf
          cases found with
          | none =>
            cases hf
            exact absurd rfl hr
          | some c =>
            obtain ⟨p, hp, hdir, hpn, rfl⟩ :=
              findComponent_holds h ha (formatFilename_base_head hbase) hc
            obtain ⟨ht, hdc⟩ := target_of_holds h.tree.wellFormed ha hp hdir
            rw [target] at ht
            simp only [ht] at hf
            obtain ⟨ps, hps, he⟩ := ih hdc hrest hf
            refine ⟨p :: ps, .cons hp hdir hps, ?_⟩
            have hfilter : (s :: names).filter (· ≠ []) = s :: names.filter (· ≠ []) :=
              List.filter_cons_of_pos (by simpa using hne)
            rw [List.map_cons, hfilter, List.map_cons, he, hpn]

end Descending

section Climbing

variable {fs : Fat32} {d : Bytes} {cwd a b c p n : ℕ} {ps qs l : List ℕ}

theorem Down.pos (h : TypedTree fs d cwd) (hd : Down fs (linkEntry fs) d fs.rootCluster ps c) :
    2 ≤ c ∧ c < 2 ^ 28 :=
  directory_pos h.tree.wellFormed (hd.directory .refl)

theorem Down.ne_of_length (h : TypedTree fs d cwd)
    (hp : Down fs (linkEntry fs) d fs.rootCluster ps a)
    (hq : Down fs (linkEntry fs) d fs.rootCluster qs b) (hne : ps.length ≠ qs.length) :
    a ≠ b := by
  rintro rfl
  exact hne (congrArg _ (Down.unique h.tree.wellFormed hp hq))

theorem dotDot_entry (hg : Geometry fs) (hc : InRange fs c) :
    readEntry (diskRead d (clusterToSector fs c)) 32 = readEntry d (clusterAddr fs c + 32) := by
  have ha : 512 * clusterToSector fs c = clusterAddr fs c := by
    rw [(clusterToSector_eq hg hc).1, clusterAddr]
  rw [readEntry_diskRead, ha]

theorem climb_eq (h : TypedTree fs d cwd) (n : ℕ)
    (hd : Down fs (linkEntry fs) d fs.rootCluster ps c) :
    climb fs d n c = some ((ps.reverse.take n).map (slotCluster d)) := by
  have hw := h.tree.wellFormed
  induction n generalizing ps c with
  | zero => simp [climb]
  | succ n ih =>
    rcases List.eq_nil_or_concat ps with rfl | ⟨ps, p, rfl⟩
    · cases hd
      simp [climb]
    · rw [List.concat_eq_append] at hd ⊢
      obtain ⟨b, hb, hp, hdir, hc⟩ := hd.last
      have hbd := hb.directory .refl
      have hroot : c ≠ fs.rootCluster := hc ▸ holds_ne_root hw hbd hp hdir
      have hdots := h.tree.dots b p hbd hp hdir
      rw [hc] at hdots
      obtain ⟨m, hm⟩ := hw.chain (hd.directory .refl)
      have hentry := dotDot_entry (d := d) hw.geometry hm.start_inRange
      have hbpos := (Down.pos h hb).1
      have hparent : (if (readEntry d (clusterAddr fs c + 32)).firstCluster = 0 then
          fs.rootCluster else (readEntry d (clusterAddr fs c + 32)).firstCluster) = b :=
        target_dotDot hdots (by omega)
      have hne : b ≠ c := Down.ne_of_length h hb hd (by simp)
      have hname : dotDotName.getD 0 0 = dot ∧ dotDotName.getD 1 0 = dot := by decide
      rw [climb, if_neg hroot]
      simp only [hentry, hdots.dotDot_name, hname, and_self, if_true, hparent, if_neg hne, ih hb]
      simp [slotCluster, hc]

/-- A live entry of a directory that the search takes for the child. -/
def ListsChild (fs : Fat32) (d : Bytes) (parent child p : ℕ) : Prop :=
  (readEntry d p).attr ≠ attrLongName ∧ (readEntry d p).isDirectory ∧
    (if (readEntry d p).firstCluster = 0 ∧ parent = fs.rootCluster then fs.rootCluster
      else (readEntry d p).firstCluster) = child

instance (fs : Fat32) (d : Bytes) (parent child : ℕ) :
    DecidablePred (ListsChild fs d parent child) := fun _ =>
  inferInstanceAs (Decidable (_ ∧ _ ∧ _))

theorem dirnameVisit_slot (hp : 32 ∣ p) : dirnameVisit fs d a c (p / 512) (p % 512 / 32) =
    searchAt d (ListsChild fs d a c) (slotBase d) p := by
  simp only [dirnameVisit, searchAt, ListsChild, slotBase, baseName, diskRead_slot hp,
    readEntry_slot hp]
  split_ifs <;> simp_all

theorem scanDirname_eq (hg : Geometry fs) {x : ℕ} (hx : InRange fs x) :
    scanCluster fs (clusterToSector fs x) (dirnameVisit fs d a c) =
      (clusterSlots fs x).findSome? (searchAt d (ListsChild fs d a c) (slotBase d)) := by
  rw [scanCluster_eq hg hx]
  exact findSome?_congr fun p hp => dirnameVisit_slot (clusterSlots_dvd hp)

theorem findDirname_eq (hg : Geometry fs) (hl : Chain fs d a l) {r : Option (List UInt8)}
    (hv : (slots fs l).findSome? (searchAt d (ListsChild fs d a c) (slotBase d)) = some r) :
    findDirnameInParent fs d a c = some r := by
  have hscan : l.findSome? (fun x => scanCluster fs (clusterToSector fs x)
      (dirnameVisit fs d a c)) = some r := by
    rw [← hv, slots, findSome?_flatMap]
    exact findSome?_congr fun x hx => scanDirname_eq hg (hl.inRange x hx)
  have hon : ∀ x ∈ l, ¬ offNameSearch x := by
    intro x hx
    have h1 := hl.inRange x hx
    have h2 := hg.clusters
    have h3 := h1.2
    simp only [offNameSearch, not_not]
    exact ⟨h1.1, by omega⟩
  rw [findDirnameInParent, walk_hit _ hl.linked hon hscan (hl.length_lt hg).le]
  rfl

theorem listsChild_iff (h : TypedTree fs d cwd)
    (hd : Down fs (linkEntry fs) d fs.rootCluster ps a)
    (hc : Down fs (linkEntry fs) d fs.rootCluster qs c) (hlen : ps.length < qs.length)
    {q : ℕ} (hq : SlotOf fs d a q) (hlive : Live d q) (hlist : ListsChild fs d a c q) :
    Holds fs (linkEntry fs) d a q ∧ (readEntry d q).isDirectory ∧
      (readEntry d q).firstCluster = c := by
  have hw := h.tree.wellFormed
  have ha := hd.directory .refl
  obtain ⟨hshort, hdir, he⟩ := hlist
  have hn : Named d q := ⟨hlive, hshort⟩
  by_cases hlink : linkEntry fs a (readEntry d q).name
  · -- a link leads to the directory or to its parent, and the child is below both
    have hfirst : (readEntry d q).firstCluster = c := by
      rwa [if_neg fun h0 => hlink.1 h0.2] at he
    have hcpos := (Down.pos h hc).1
    rcases List.eq_nil_or_concat ps with rfl | ⟨ps, p, rfl⟩
    · cases hd
      exact absurd rfl hlink.1
    rw [List.concat_eq_append] at hd hlen
    obtain ⟨b, hb, hp, hpd, hpa⟩ := hd.last
    have hdots := h.tree.dots b p (hb.directory .refl) hp hpd
    rw [hpa] at hdots
    rw [List.length_append] at hlen
    rcases h.tree.only a q ha hq hn hlink with rfl | rfl
    · rw [hdots.dot_cluster] at hfirst
      exact absurd hfirst (Down.ne_of_length h hd hc (by rw [List.length_append]; omega))
    · rw [hdots.dotDot_cluster, parentLink] at hfirst
      split_ifs at hfirst
      · omega
      · exact absurd hfirst (Down.ne_of_length h hb hc (by omega))
  · have hp : Holds fs (linkEntry fs) d a q := ⟨hq, hn, hlink⟩
    obtain ⟨ht, hdc⟩ := target_of_holds hw ha hp hdir
    have hpos := (directory_pos hw hdc).1
    rw [if_neg fun h0 => by omega] at he
    exact ⟨hp, hdir, he⟩

theorem findDirname_found (h : TypedTree fs d cwd)
    (hd : Down fs (linkEntry fs) d fs.rootCluster ps a)
    (hp : Holds fs (linkEntry fs) d a p) (hdir : (readEntry d p).isDirectory) :
    findDirnameInParent fs d a (slotCluster d p) = some (some (slotBase d p)) := by
  have hw := h.tree.wellFormed
  have ha := hd.directory .refl
  obtain ⟨l, hl⟩ := hw.chain ha
  have hc : Down fs (linkEntry fs) d fs.rootCluster (ps ++ [p]) (slotCluster d p) :=
    hd.append (.cons hp hdir .nil)
  obtain ⟨pre, post, hs⟩ := List.append_of_mem (hp.slot.mem hl)
  have hnd := slots_nodup hw.geometry hl.inRange hl.linked.nodup
  have htail := hw.zero_tail a l ha hl
  rw [hs, List.nodup_append] at hnd
  rw [hs, List.pairwise_append] at htail
  have hpos := (Down.pos h hc).1
  refine findDirname_eq hw.geometry hl (search_first hs hp.named.live ⟨hp.named.short, hdir, ?_⟩ ?_)
  · exact if_neg fun h0 => by simp only [slotCluster] at hpos; omega
  · intro q hq
    constructor
    · intro h0
      exact hp.named.live.1 (htail.2.2 q hq p List.mem_cons_self h0)
    · intro hlive hlist
      have hqs : SlotOf fs d a q := ⟨l, hl, by rw [hs]; simp [hq]⟩
      obtain ⟨hqh, -, he⟩ := listsChild_iff h hd hc (by simp) hqs hlive hlist
      exact hnd.2.2 q hq p List.mem_cons_self (holds_unique hw ha ha hp hqh hdir he).symm

/-- A directory below a child of the root is not listed in the root. -/
theorem findDirname_orphan (h : TypedTree fs d cwd)
    (hc : Down fs (linkEntry fs) d fs.rootCluster ps c) (hlen : 1 < ps.length)
    (hend : ∃ p, SlotOf fs d fs.rootCluster p ∧ d p = 0) :
    findDirnameInParent fs d fs.rootCluster c = some none := by
  have hw := h.tree.wellFormed
  obtain ⟨p, hp, h0⟩ := hend
  obtain ⟨l, hl⟩ := hw.chain (a := fs.rootCluster) .refl
  refine findDirname_eq hw.geometry hl ?_
  cases hv : (slots fs l).findSome?
      (searchAt d (ListsChild fs d fs.rootCluster c) (slotBase d)) with
  | none =>
    have hn := List.findSome?_eq_none_iff.mp hv p (hp.mem hl)
    simp [searchAt, h0] at hn
  | some r =>
    cases r with
    | none => rfl
    | some name =>
      obtain ⟨pre, q, post, hs, hlive, hlist, -⟩ := search_some (by rw [hv]; rfl)
      have hqs : SlotOf fs d fs.rootCluster q := ⟨l, hl, by rw [hs]; simp⟩
      obtain ⟨hqh, hqd, he⟩ := listsChild_iff h .nil hc (by rw [List.length_nil]; omega) hqs
        hlive hlist
      have hone : Down fs (linkEntry fs) d fs.rootCluster [q] c := he ▸ .cons hqh hqd .nil
      rw [← Down.unique hw hone hc] at hlen
      simp at hlen

theorem takeWhile_base {s : List UInt8} (h : Base s) : s.takeWhile (· ≠ 0) = s := by
  apply List.takeWhile_eq_self_iff.mpr
  intro c hc
  simpa using (h.chars c hc).2.1

theorem printNames_eq (h : TypedTree fs d cwd)
    (hd : Down fs (linkEntry fs) d fs.rootCluster qs a) (hps : Down fs (linkEntry fs) d a ps c) :
    printNames fs d a (ps.map (slotCluster d)) = some (pathText (ps.map (slotBase d))) := by
  induction hps generalizing qs with
  | nil => rfl
  | @cons a p ps b hp hdir _ ih =>
    have hbase := h.base (hd.directory .refl) hp
    have hrest := ih (hd.append (.cons hp hdir .nil))
    rw [List.map_cons, printNames, findDirname_found h hd hp hdir, List.map_cons, pathText_cons]
    simp only [Option.bind_eq_bind, Option.bind_some, takeWhile_base hbase]
    rw [show slotCluster d p = (readEntry d p).firstCluster from rfl, hrest]
    rfl

end Climbing

section Agreement

variable {fs : Fat32} {d : Bytes} {cwd : ℕ} {ps front back : List ℕ} {path : List UInt8}
variable {names : List (List UInt8)}

theorem getPathCluster_text (hne : names ≠ []) :
    fat32GetPathCluster fs d cwd (pathText names) =
      followPath fs d ((pathText names).length + 1) fs.rootCluster (pathText names) := by
  obtain ⟨s, names, rfl⟩ := List.exists_cons_of_ne_nil hne
  rw [pathText_cons, followPath_slash]
  exact if_pos rfl

theorem pwd_eq (front : List ℕ) (h : TypedTree fs d cwd)
    (hd : Down fs (linkEntry fs) d fs.rootCluster (front ++ back) cwd) (hne : back ≠ [])
    (hlen : front = [] ∧ back.length ≤ 16 ∨ back.length = 16) :
    fat32Pwd fs d cwd = (printNames fs d fs.rootCluster (back.map (slotCluster d))).map
      fun path => .ok (path ++ [newline]) := by
  have hroot : cwd ≠ fs.rootCluster :=
    Down.ne_of_length h hd .nil (by simp [List.length_pos_iff.mpr hne |>.ne'])
  have htake : (front ++ back).reverse.take 16 = back.reverse := by
    rw [List.reverse_append]
    rcases hlen with ⟨rfl, hle⟩ | he
    · rw [List.reverse_nil, List.append_nil, List.take_of_length_le]
      rwa [List.length_reverse]
    · rw [List.take_left']
      rwa [List.length_reverse]
  rw [fat32Pwd, if_neg hroot, climb_eq h 16 hd, htake, List.map_reverse]
  simp only [List.reverse_reverse]
  cases printNames fs d fs.rootCluster (back.map (slotCluster d)) <;> rfl

theorem orphanName_base : Base orphanName := by
  refine ⟨by decide, ?_, by decide⟩
  intro c hc
  obtain rfl : c = 0x3F := by simpa [orphanName] using hc
  decide

theorem pwd_short (h : TypedTree fs d cwd)
    (hd : Down fs (linkEntry fs) d fs.rootCluster ps cwd) (hne : ps ≠ [])
    (hlen : ps.length ≤ 16) :
    fat32Pwd fs d cwd = some (.ok (pathText (ps.map (slotBase d)) ++ [newline])) := by
  rw [pwd_eq [] h hd hne (.inl ⟨rfl, hlen⟩), printNames_eq h .nil hd]
  rfl

theorem down_bases (h : TypedTree fs d cwd) {a b : ℕ} (ha : Directory fs (linkEntry fs) d a)
    (hd : Down fs (linkEntry fs) d a ps b) : ∀ s ∈ ps.map (slotBase d), Base s := by
  induction hd with
  | nil => simp
  | cons hp hdir _ ih =>
    intro s hs
    rcases List.mem_cons.mp hs with rfl | hs
    · exact h.base ha hp
    · exact ih (ha.tail ⟨_, hp, hdir, rfl⟩) s hs

theorem pathText_length (names : List (List UInt8)) : names.length ≤ (pathText names).length := by
  induction names with
  | nil => simp
  | cons s names ih =>
    rw [pathText_cons, List.length_cons, List.length_cons, List.length_append]
    omega

theorem pwd_plain (h : TypedTree fs d cwd) (hway : PlainWay fs d cwd) : PwdAgrees fs d cwd := by
  obtain ⟨ps, hd, hlen, hplain⟩ := hway
  by_cases hne : ps = []
  · subst hne
    cases hd
    exact ⟨[slash], if_pos rfl, rfl⟩
  · refine ⟨_, pwd_short h hd hne hlen, ?_⟩
    rw [getPathCluster_text (by simpa using hne)]
    refine followPath_down h .refl hd ?_ hplain
    have := pathText_length (ps.map (slotBase d))
    rw [List.length_map] at this
    omega

/-- What the parser finds under the printed names lies as many levels down as there are
names that are not empty. -/
theorem down_of_printed (h : TypedTree fs d cwd) (hne : names ≠ [])
    (hnames : ∀ s ∈ names, Base s)
    (hrun : fat32GetPathCluster fs d cwd (pathText names) = some cwd)
    (hd : Down fs (linkEntry fs) d fs.rootCluster ps cwd) :
    ps.map (fun p => (readEntry d p).name) = (names.filter (· ≠ [])).map formatFilename := by
  rw [getPathCluster_text hne] at hrun
  have hpos := Down.pos h hd
  obtain ⟨qs, hq, he⟩ := down_of_followPath h .refl hnames hrun (by omega)
  rw [Down.unique h.tree.wellFormed hd hq]
  exact he

theorem ok_append_inj {p q : List UInt8}
    (h : (some (.ok (p ++ [newline])) : Option (Except String (List UInt8))) =
      some (.ok (q ++ [newline]))) : p = q :=
  List.append_cancel_right (Except.ok.inj (Option.some.inj h))

theorem plainWay_of_agrees (h : TypedTree fs d cwd) (hagree : PwdAgrees fs d cwd) :
    PlainWay fs d cwd ∨ LeavesRoot fs d cwd := by
  have hw := h.tree.wellFormed
  obtain ⟨ps, hd⟩ := directory_down hw.current
  obtain ⟨path, hpwd, hpath⟩ := hagree
  by_cases hne : ps = []
  · subst hne
    exact .inl ⟨[], hd, by simp, by simp⟩
  by_cases hlen : ps.length ≤ 16
  · left
    rw [pwd_short h hd hne hlen] at hpwd
    obtain rfl := ok_append_inj hpwd
    have hnames := down_of_printed h (by simpa using hne) (down_bases h .refl hd) hpath hd
    -- no name is lost, so none is empty
    have hcount := congrArg List.length hnames
    simp only [List.length_map] at hcount
    have hall : (ps.map (slotBase d)).filter (· ≠ []) = ps.map (slotBase d) := by
      apply List.filter_sublist.eq_of_length
      rw [← hcount, List.length_map]
    rw [hall, List.map_map] at hnames
    refine ⟨ps, hd, hlen, fun p hp => ?_⟩
    have hbase : Base (slotBase d p) := down_bases h .refl hd _ (List.mem_map_of_mem hp)
    refine (plain_iff hbase).mpr ⟨?_, ?_⟩
    · have hmem : slotBase d p ∈ (ps.map (slotBase d)).filter (· ≠ []) := by
        rw [hall]
        exact List.mem_map_of_mem hp
      have hnil : slotBase d p ≠ [] := by simpa using (List.mem_filter.mp hmem).2
      exact hnil
    · exact (List.map_inj_left.mp hnames p hp).symm
  · right
    refine ⟨⟨ps, hd, by omega⟩, ?_⟩
    by_contra hend
    push Not at hend
    -- the first name that is printed is `???`, and 16 names lead to no deeper directory
    obtain ⟨front, back, rfl, hback⟩ : ∃ front back, ps = front ++ back ∧ back.length = 16 :=
      ⟨ps.take (ps.length - 16), ps.drop (ps.length - 16), by simp, by
        rw [List.length_drop]
        omega⟩
    obtain ⟨q, back, rfl⟩ : ∃ q back', back = q :: back' :=
      List.exists_cons_of_ne_nil (by rintro rfl; simp at hback)
    rw [List.length_append] at hlen
    obtain ⟨a, ha, hrest⟩ := hd.split
    cases hrest with
    | @cons _ _ _ _ hq hqd hrest =>
      have hc := ha.append (.cons hq hqd .nil)
      have horphan := findDirname_orphan h hc (by rw [List.length_append]; simp; omega) hend
      have hprint : printNames fs d fs.rootCluster ((q :: back).map (slotCluster d)) =
          some (pathText (orphanName :: back.map (slotBase d))) := by
        rw [List.map_cons, printNames, show slotCluster d q = (readEntry d q).firstCluster from rfl,
          horphan]
        simp only [Option.bind_eq_bind, Option.bind_some]
        rw [printNames_eq h hc hrest]
        rfl
      rw [pwd_eq _ h hd (by simp) (.inr hback), hprint] at hpwd
      obtain rfl := ok_append_inj hpwd
      have hbases : ∀ s ∈ orphanName :: back.map (slotBase d), Base s := by
        intro s hs
        rcases List.mem_cons.mp hs with rfl | hs
        · exact orphanName_base
        · exact down_bases h (hc.directory .refl) hrest s hs
      have hcount := congrArg List.length (down_of_printed h (by simp) hbases hpath hd)
      have hfilter := List.length_filter_le (· ≠ []) (orphanName :: back.map (slotBase d))
      simp only [List.length_map, List.length_append, List.length_cons] at hcount hfilter hback hlen
      omega

end Agreement

/-- In every state of a run the path that `fat32_pwd` prints leads back when the way to the
current directory is short and plain, and otherwise only if the search for a name has left
the root directory. -/
theorem pwd_agrees_iff {fs : Fat32} {d₀ d : Bytes} {cwd : ℕ} (h : EmptyVolume fs d₀)
    (hr : AllowedRun fs (d₀, fs.rootCluster) (d, cwd)) :
    (PlainWay fs d cwd → PwdAgrees fs d cwd) ∧
      (PwdAgrees fs d cwd → PlainWay fs d cwd ∨ LeavesRoot fs d cwd) := by
  have ht : TypedTree fs d cwd :=
    allowedRun_typed (s := (d₀, fs.rootCluster)) (typedTree_of_empty h) hr
  exact ⟨pwd_plain ht, plainWay_of_agrees ht⟩

theorem blankDisk_empty : EmptyVolume tinyVolume blankDisk :=
  ⟨by decide, [2], blankDisk_chain, by decide⟩

theorem oneDirectory_entered :
    AllowedRun tinyVolume (blankDisk, tinyVolume.rootCluster) (oneDirectory, 3) := by
  have hmk : (TreeCall.createDirectory [0x44]).step tinyVolume (blankDisk, 2) =
      some (oneDirectory, 2) := createDirectory_blankDisk (by decide +kernel)
  have hcd : (TreeCall.cd [0x44]).step tinyVolume (oneDirectory, 2) =
      some (oneDirectory, 3) := cd_step (by decide +kernel) (by decide)
  have htyped : Typed [0x44] := ⟨by decide, by decide, by decide, by decide⟩
  exact (Relation.ReflTransGen.single ⟨.createDirectory _, htyped, hmk⟩).tail
    ⟨.cd _, trivial, hcd⟩

theorem pwd_agrees_iff_oneDirectory :
    (PlainWay tinyVolume oneDirectory 3 → PwdAgrees tinyVolume oneDirectory 3) ∧
      (PwdAgrees tinyVolume oneDirectory 3 →
        PlainWay tinyVolume oneDirectory 3 ∨ LeavesRoot tinyVolume oneDirectory 3) :=
  pwd_agrees_iff blankDisk_empty oneDirectory_entered

/-- The blank volume after `mkdir A.B`. -/
def dottedDirectory : Bytes :=
  directoryRecorded tinyVolume blankDisk 2 3 1024 [0x41, 0x2E, 0x42]

/-- After `cd A.B` the path printed is `/A`, and there is no `A`. -/
theorem pwd_drops_extension : ¬ ∀ (fs : Fat32) (d₀ d : Bytes) (cwd : ℕ), EmptyVolume fs d₀ →
    AllowedRun fs (d₀, fs.rootCluster) (d, cwd) → PwdAgrees fs d cwd := by
  intro h
  have hmk : (TreeCall.createDirectory [0x41, 0x2E, 0x42]).step tinyVolume (blankDisk, 2) =
      some (dottedDirectory, 2) := createDirectory_blankDisk (by decide +kernel)
  have hcd : (TreeCall.cd [0x41, 0x2E, 0x42]).step tinyVolume (dottedDirectory, 2) =
      some (dottedDirectory, 3) := cd_step (by decide +kernel) (by decide)
  have htyped : Typed [0x41, 0x2E, 0x42] := ⟨by decide, by decide, by decide, by decide⟩
  obtain ⟨path, hpwd, hpath⟩ := h tinyVolume blankDisk dottedDirectory 3 blankDisk_empty
    ((Relation.ReflTransGen.single ⟨.createDirectory _, htyped, hmk⟩).tail ⟨.cd _, trivial, hcd⟩)
  have hprinted :
      fat32Pwd tinyVolume dottedDirectory 3 = some (.ok ([slash, 0x41] ++ [newline])) := by
    decide +kernel
  rw [hprinted] at hpwd
  rw [← ok_append_inj hpwd] at hpath
  have hmissing : fat32GetPathCluster tinyVolume dottedDirectory 3 [slash, 0x41] =
      some 0xFFFFFFFF := by decide +kernel
  rw [hmissing] at hpath
  exact absurd (Option.some.inj hpath) (by norm_num)

end Fat32Pwd
