import SojebOS.Fat32Entries
import SojebOS.Fat32DirectoryWalks

/-!
# The slots that the searches select

The lookup, the deletion and the removal of a directory search for a name one by one. The
first two pass over long-name slots, the third compares them like any other: it selects the
same slot unless the bytes of a long-name slot before it happen to be the name.
-/
namespace Fat32SearchTargets

open ByteMemory MachineWord WhileLoop LinkedChain
open Fat32Disk Fat32Directory Fat32Files Fat32Tree Fat32Volume Fat32Entries

/-- The slot whose entry `fat32_find_file` returns. -/
def findTarget (fs : Fat32) (d : Bytes) (cwd : ℕ) (filename : List UInt8) :
    Option (Option (ℕ × ℕ)) :=
  (walkDirectory fs d cwd fun sector i =>
    (findVisit d (formatFilename filename) sector i).map fun found =>
      found.map fun _ => (sector, i)).map Option.join

/-- The slot that `fat32_delete_file` removes. -/
def deleteTarget (fs : Fat32) (d : Bytes) (cwd : ℕ) (filename : List UInt8) :
    Option (Option (ℕ × ℕ)) :=
  (walkDirectory fs d cwd (deleteVisit d (formatFilename filename))).map Option.join

/-- The slot that `fat32_rmdir` tests and removes. -/
def removeTarget (fs : Fat32) (d : Bytes) (cwd : ℕ) (dirname : List UInt8) :
    Option (Option (ℕ × ℕ)) :=
  (walkDirectory fs d cwd (removeVisit d (formatFilename dirname))).map Option.join

/-- The three searches select the slot of the entry found, and without one the disk stays as
it is. -/
def SearchesAgree (fs : Fat32) (d : Bytes) (cwd : ℕ) (name : List UInt8) : Prop :=
  ∃ target, findTarget fs d cwd name = some target ∧
    fat32FindFile fs d cwd name =
      some (target.map fun slot => readEntry (diskRead d slot.1) (32 * slot.2)) ∧
    (∀ slot, target = some slot →
      deleteTarget fs d cwd name = some (some slot) ∧
      removeTarget fs d cwd name = some (some slot)) ∧
    (target = none → fat32DeleteFile fs d cwd name = some d ∧
      ∃ reply, fat32Rmdir fs d cwd name = some (d, reply))

/-- The addresses of the slots of the clusters of a list, wherever their sectors are. -/
def slotAddrs (fs : Fat32) (l : List ℕ) : List ℕ :=
  l.flatMap fun c => (List.range fs.sectorsPerCluster).flatMap fun s =>
    (List.range 16).map fun i => 512 * u32 (clusterToSector fs c + s) + 32 * i

def LongMatch (d : Bytes) (name : List UInt8) (p : ℕ) : Prop :=
  Live d p ∧ (readEntry d p).attr = attrLongName ∧ (readEntry d p).name = name

/-- The first slot before the end mark that is short and has the name. -/
def FirstMatch (d : Bytes) (name : List UInt8) (pre : List ℕ) (p : ℕ) : Prop :=
  (Live d p ∧ Matches d name p) ∧ ∀ q ∈ pre, d q ≠ 0 ∧ (Live d q → ¬ Matches d name q)

section Targets

variable {fs : Fat32} {d : Bytes} {cwd p q : ℕ} {l pre post : List ℕ} {name : List UInt8}
variable {ρ : Type}

theorem slotAddrs_dvd (hp : p ∈ slotAddrs fs l) : 32 ∣ p := by
  simp only [slotAddrs, List.mem_flatMap, List.mem_map, List.mem_range] at hp
  obtain ⟨c, _, s, _, i, _, rfl⟩ := hp
  omega

/-- A walk over a chain visits its slots in order, whatever the geometry of the volume. -/
theorem walkDirectory_slotAddrs (hl : Linked (fat32NextCluster fs d) offChain cwd l)
    (visit : ℕ → ℕ → Option ρ) : walkDirectory fs d cwd visit =
      some ((slotAddrs fs l).findSome? fun p => visit (p / 512) (p % 512 / 32)) := by
  rw [walkDirectory, walk_eq_findSome _ hl (Nat.lt_of_succ_lt (offChain_length_lt hl)), slotAddrs,
    findSome?_flatMap]
  congr 1
  refine findSome?_congr fun c _ => ?_
  rw [findSome?_flatMap, scanCluster]
  refine findSome?_congr fun s _ => ?_
  rw [List.findSome?_map]
  refine findSome?_congr fun i hi => ?_
  have hi := List.mem_range.mp hi
  simp only [Function.comp_apply]
  congr 1 <;> omega

theorem findTarget_eq (hl : Linked (fat32NextCluster fs d) offChain cwd l) (name : List UInt8) :
    findTarget fs d cwd name = some ((slotAddrs fs l).findSome?
      (searchAt d (Matches d (formatFilename name)) fun p => (p / 512, p % 512 / 32))).join := by
  rw [findTarget, walkDirectory_slotAddrs hl, Option.map_some]
  congr 2
  refine findSome?_congr fun p hp => ?_
  rw [findVisit_slot (slotAddrs_dvd hp)]
  simp only [searchAt]
  split_ifs <;> rfl

theorem findFile_target (hl : Linked (fat32NextCluster fs d) offChain cwd l)
    {target : Option (ℕ × ℕ)} (h : findTarget fs d cwd name = some target) :
    fat32FindFile fs d cwd name =
      some (target.map fun slot => readEntry (diskRead d slot.1) (32 * slot.2)) := by
  rw [findTarget_eq hl, Option.some.injEq] at h
  rw [fat32FindFile, walkDirectory_slotAddrs hl, Option.map_some, ← h, search_map]
  congr 2
  refine findSome?_congr fun p hp => ?_
  rw [findVisit_slot (slotAddrs_dvd hp)]
  simp only [searchAt, readEntry_slot (slotAddrs_dvd hp)]

theorem deleteTarget_eq (hl : Linked (fat32NextCluster fs d) offChain cwd l) (name : List UInt8) :
    deleteTarget fs d cwd name = some ((slotAddrs fs l).findSome?
      (searchAt d (Matches d (formatFilename name)) fun p => (p / 512, p % 512 / 32))).join := by
  rw [deleteTarget, walkDirectory_slotAddrs hl, Option.map_some]
  congr 2
  exact findSome?_congr fun p hp => deleteVisit_slot (slotAddrs_dvd hp) (formatFilename name)

theorem removeTarget_eq (hl : Linked (fat32NextCluster fs d) offChain cwd l) (name : List UInt8) :
    removeTarget fs d cwd name = some ((slotAddrs fs l).findSome?
      (searchAt d (fun p => (readEntry d p).name = formatFilename name)
        fun p => (p / 512, p % 512 / 32))).join := by
  rw [removeTarget, walkDirectory_slotAddrs hl, Option.map_some]
  congr 2
  exact findSome?_congr fun p hp => removeVisit_slot (slotAddrs_dvd hp) (formatFilename name)

theorem longName_not_directory {e : Fat32DirEntry} (h : e.attr = attrLongName) :
    ¬ e.isDirectory := by
  rw [Fat32DirEntry.isDirectory, h]
  decide

theorem searches_touch_nothing (hl : Linked (fat32NextCluster fs d) offChain cwd l)
    (h : findTarget fs d cwd name = some none) : fat32DeleteFile fs d cwd name = some d ∧
      ∃ reply, fat32Rmdir fs d cwd name = some (d, reply) := by
  rw [findTarget_eq hl, Option.some.injEq] at h
  have hdelete := deleteTarget_eq hl name
  rw [h, deleteTarget, Option.map_eq_some_iff] at hdelete
  obtain ⟨found, hwalk, hfound⟩ := hdelete
  have hremove := removeTarget_eq hl name
  rw [removeTarget, Option.map_eq_some_iff] at hremove
  obtain ⟨selected, hselect, hselected⟩ := hremove
  constructor
  · rw [fat32DeleteFile, hwalk, Option.bind_eq_bind, Option.bind_some, hfound]
    rfl
  rw [fat32Rmdir, hselect, Option.bind_eq_bind, Option.bind_some, hselected]
  cases hr : (List.findSome? (searchAt d (fun p => (readEntry d p).name = formatFilename name)
      fun p => (p / 512, p % 512 / 32)) (slotAddrs fs l)).join with
  | none => exact ⟨none, rfl⟩
  | some slot =>
    obtain ⟨pre, p, post, hs, hlive, hname, rfl, hpre⟩ := search_some hr
    have hdvd : 32 ∣ p := slotAddrs_dvd (hs ▸ List.mem_append_right pre List.mem_cons_self)
    -- a short name would have been found
    have hattr : (readEntry d p).attr = attrLongName := by
      by_contra hattr
      rw [search_first hs hlive ⟨hattr, hname⟩ fun q hq =>
        ⟨(hpre q hq).1, fun hq' hm => (hpre q hq).2 hq' hm.2⟩] at h
      cases h
    refine ⟨some .targetIsFile, ?_⟩
    simp only [readEntry_slot hdvd, longName_not_directory hattr, not_false_eq_true, ↓reduceIte]
    rfl

theorem removeTarget_first (hl : Linked (fat32NextCluster fs d) offChain cwd l)
    (hs : slotAddrs fs l = pre ++ q :: post) (hq : FirstMatch d (formatFilename name) pre q)
    (hno : ∀ p ∈ pre, ¬ LongMatch d (formatFilename name) p) :
    removeTarget fs d cwd name = some (some (q / 512, q % 512 / 32)) := by
  have hpre : ∀ p ∈ pre, d p ≠ 0 ∧ (Live d p → ¬ (readEntry d p).name = formatFilename name) := by
    intro p hp
    refine ⟨(hq.2 p hp).1, fun hlive hname => ?_⟩
    by_cases hattr : (readEntry d p).attr = attrLongName
    · exact hno p hp ⟨hlive, hattr, hname⟩
    · exact (hq.2 p hp).2 hlive ⟨hattr, hname⟩
  rw [removeTarget_eq hl, search_first hs hq.1.1 hq.1.2.2 hpre]
  rfl

/-- A long name with the bytes makes the removal select a slot before the first match. -/
theorem removeTarget_long (hl : Linked (fat32NextCluster fs d) offChain cwd l)
    (hs : slotAddrs fs l = pre ++ q :: post) (hq : FirstMatch d (formatFilename name) pre q)
    (hp : p ∈ pre) (hlong : LongMatch d (formatFilename name) p) :
    removeTarget fs d cwd name ≠ some (some (q / 512, q % 512 / 32)) := by
  have hhit : searchAt d (fun p => (readEntry d p).name = formatFilename name)
      (fun p => (p / 512, p % 512 / 32)) p = some (some (p / 512, p % 512 / 32)) :=
    searchAt_hit hlong.1 hlong.2.2
  cases hv : pre.findSome? (searchAt d (fun p => (readEntry d p).name = formatFilename name)
      fun p => (p / 512, p % 512 / 32)) with
  | none =>
    rw [List.findSome?_eq_none_iff.mp hv p hp] at hhit
    cases hhit
  | some v =>
    rw [removeTarget_eq hl, hs, List.findSome?_append, hv, Option.some_or]
    intro hsame
    obtain rfl : v = some (q / 512, q % 512 / 32) := Option.some.inj hsame
    obtain ⟨pre', r, post', hsplit, hlive, hname, heq, -⟩ :=
      search_some (l := pre) (by rw [hv]; rfl)
    obtain ⟨hsector, hslot⟩ := Prod.mk.inj heq
    have hr : r ∈ pre := hsplit ▸ List.mem_append_right pre' List.mem_cons_self
    have hrdvd : 32 ∣ r := slotAddrs_dvd (hs ▸ List.mem_append_left _ hr)
    have hqdvd : 32 ∣ q := slotAddrs_dvd (hs ▸ List.mem_append_right pre List.mem_cons_self)
    obtain rfl : q = r := by omega
    exact (hq.2 q hr).2 hq.1.1 hq.1.2

/-- The three searches agree exactly when no long-name slot whose bytes are the name comes
before the first match. -/
theorem searches_agree_iff (fs : Fat32) (d : Bytes) (cwd : ℕ) (l : List ℕ)
    (hl : Linked (fat32NextCluster fs d) offChain cwd l) (name : List UInt8) :
    SearchesAgree fs d cwd name ↔ ∀ pre q post, slotAddrs fs l = pre ++ q :: post →
      FirstMatch d (formatFilename name) pre q →
      ∀ p ∈ pre, ¬ LongMatch d (formatFilename name) p := by
  constructor
  · rintro ⟨target, htarget, -, hagree, -⟩ pre q post hs hq p hp hlong
    rw [findTarget_eq hl, search_first hs hq.1.1 hq.1.2 hq.2] at htarget
    obtain rfl : some (q / 512, q % 512 / 32) = target := Option.some.inj htarget
    exact removeTarget_long hl hs hq hp hlong (hagree _ rfl).2
  · intro h
    have hfind := findTarget_eq hl name
    refine ⟨_, hfind, findFile_target hl hfind, fun slot hslot => ?_, fun hnone => ?_⟩
    · rw [hslot] at hfind
      obtain ⟨pre, q, post, hs, hlive, hm, rfl, hpre⟩ := search_some hslot
      have hq : FirstMatch d (formatFilename name) pre q := ⟨⟨hlive, hm⟩, hpre⟩
      refine ⟨?_, removeTarget_first hl hs hq (h pre q post hs hq)⟩
      rw [deleteTarget_eq hl, hslot]
    · rw [hnone] at hfind
      exact searches_touch_nothing hl hfind

/-- The root of the blank volume with a long-name slot and the entries `B` and `A`. -/
def namedDisk : Bytes :=
  fillEntry (fillEntry (fillEntry blankDisk 1024 (formatFilename [0x42]) attrLongName 0 0) 1056
    (formatFilename [0x42]) attrArchive 0 0) 1088 (formatFilename [0x41]) attrArchive 0 0

/-- Behind a long name of another file the searches agree. -/
theorem searches_agree_iff_namedDisk : SearchesAgree tinyVolume namedDisk 2 [0x41] := by
  have hchain : Linked (fat32NextCluster tinyVolume namedDisk) offChain 2 [2] :=
    .cons (by decide) (.nil (by decide +kernel))
  have hnone : ∀ p ∈ slotAddrs tinyVolume [2], (readEntry namedDisk p).attr = attrLongName →
      (readEntry namedDisk p).name ≠ formatFilename [0x41] := by
    decide +kernel
  apply (searches_agree_iff tinyVolume namedDisk 2 [2] hchain [0x41]).mpr
  rintro pre q post hs - p hp ⟨-, hattr, hname⟩
  exact hnone p (hs ▸ List.mem_append_left _ hp) hattr hname

/-- A long-name slot with the bytes of the name `A`, and behind it the directory `A`. -/
def shadowedDisk : Bytes :=
  fillEntry (fillEntry (fun x => if 520 ≤ x ∧ x < 528 then 0xFF else 0) 1024
    (formatFilename [0x41]) attrLongName 0 0) 1056 (formatFilename [0x41]) attrDirectory 3 0

/-- The lookup finds the directory, and the removal takes the long name for a file. -/
theorem shadowedDisk_disagrees : ¬ ∀ (fs : Fat32) (d : Bytes) (cwd : ℕ) (l : List ℕ),
    Linked (fat32NextCluster fs d) offChain cwd l →
      ∀ name : List UInt8, SearchesAgree fs d cwd name := by
  intro h
  have hchain : Linked (fat32NextCluster tinyVolume shadowedDisk) offChain 2 [2] :=
    .cons (by decide) (.nil (by decide +kernel))
  obtain ⟨target, htarget, -, hagree, -⟩ := h tinyVolume shadowedDisk 2 [2] hchain [0x41]
  have hfind : findTarget tinyVolume shadowedDisk 2 [0x41] = some (some (2, 1)) := by
    decide +kernel
  have hremove : removeTarget tinyVolume shadowedDisk 2 [0x41] = some (some (2, 0)) := by
    decide +kernel
  rw [hfind] at htarget
  have hsame := (hagree (2, 1) (Option.some.inj htarget).symm).2
  rw [hremove] at hsame
  exact absurd hsame (by decide)

end Targets

end Fat32SearchTargets
