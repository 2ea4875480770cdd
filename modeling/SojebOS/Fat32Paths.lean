import SojebOS.Fat32Volume

/-!
# Paths through a volume

A path follows the names of live entries from the root, `.` and `..` among them; a first
cluster of 0 stands for the root there. On a volume whose links are right, paths lead to
the directories of the tree and to no others.
-/
namespace Fat32Paths

open ByteMemory Fat32Disk Fat32Directory Fat32Tree Fat32Layout Fat32Volume

section Definitions

variable (fs : Fat32) (d : Bytes)

def target (p : ℕ) : ℕ :=
  if (readEntry d p).firstCluster = 0 then fs.rootCluster else (readEntry d p).firstCluster

def itemTarget : Item → ℕ
  | .root => fs.rootCluster
  | .entry p => target fs d p

inductive Reaches : List (List UInt8) → Item → Prop where
  | root : Reaches [] .root
  | step {ns x p} : Reaches ns x → x.IsDirectory d → SlotOf fs d (itemTarget fs d x) p →
      Named d p → Reaches (ns ++ [(readEntry d p).name]) (.entry p)

/-- A directory that some path from the root leads to. -/
def Visits (a : ℕ) : Prop :=
  ∃ ns x, Reaches fs d ns x ∧ x.IsDirectory d ∧ itemTarget fs d x = a

/-- The clusters of a file or directory. -/
def Clusters (x : Item) (l : List ℕ) : Prop :=
  x.IsDirectory d ∧ Chain fs d (itemTarget fs d x) l ∨
    ¬ x.IsDirectory d ∧ Extent fs d (x.start fs d) l

/-- The entries that are no part of the tree have the directory attribute and refer to
directories of the tree. -/
def LinksRefer (skip : ℕ → List UInt8 → Prop) : Prop :=
  ∀ a p, Directory fs skip d a → SlotOf fs d a p → Named d p →
    skip a (readEntry d p).name → (readEntry d p).isDirectory ∧
      Directory fs skip d (target fs d p)

end Definitions

section Laws

variable {fs : Fat32} {skip : ℕ → List UInt8 → Prop} {d : Bytes} {cwd a p : ℕ} {x : Item}
variable {ns : List (List UInt8)}

theorem target_eq (h : (readEntry d p).firstCluster ≠ 0) :
    target fs d p = (readEntry d p).firstCluster := if_neg h

theorem target_of_holds (hw : WellFormed fs skip d cwd) (ha : Directory fs skip d a)
    (hp : Holds fs skip d a p) (hdir : (readEntry d p).isDirectory) :
    target fs d p = (readEntry d p).firstCluster ∧
      Directory fs skip d (readEntry d p).firstCluster := by
  obtain ⟨l, hl⟩ := hw.directory_chain (.entry p) ⟨a, ha, hp⟩ hdir
  have h2 : 2 ≤ (readEntry d p).firstCluster := hl.start_inRange.1
  exact ⟨target_eq (by omega), ha.tail ⟨p, hp, hdir, rfl⟩⟩

theorem directory_reaches (hw : WellFormed fs skip d cwd) (ha : Directory fs skip d a) :
    ∃ ns x, Reaches fs d ns x ∧ x.IsDirectory d ∧ itemTarget fs d x = a := by
  induction ha with
  | refl => exact ⟨[], .root, .root, trivial, rfl⟩
  | tail hb hs ih =>
    obtain ⟨ns, x, hx, hdir, rfl⟩ := ih
    obtain ⟨p, hp, hpd, rfl⟩ := hs
    exact ⟨_, .entry p, hx.step hdir hp.slot hp.named, hpd, (target_of_holds hw hb hp hpd).1⟩

theorem reaches_directory (hw : WellFormed fs skip d cwd) (hlinks : LinksRefer fs d skip)
    (hx : Reaches fs d ns x) (hdir : x.IsDirectory d) :
    Directory fs skip d (itemTarget fs d x) := by
  induction hx with
  | root => exact .refl
  | @step ns x p _ hxd hp hn ih =>
    have ha := ih hxd
    by_cases hskip : skip (itemTarget fs d x) (readEntry d p).name
    · exact (hlinks _ p ha hp hn hskip).2
    · obtain ⟨ht, hd⟩ := target_of_holds hw ha ⟨hp, hn, hskip⟩ hdir
      rw [itemTarget, ht]
      exact hd

theorem visits_iff (hw : WellFormed fs skip d cwd) (hlinks : LinksRefer fs d skip) :
    Visits fs d a ↔ Directory fs skip d a := by
  constructor
  · rintro ⟨ns, x, hx, hdir, rfl⟩
    exact reaches_directory hw hlinks hx hdir
  · exact directory_reaches hw

theorem reaches_present (hw : WellFormed fs skip d cwd) (hlinks : LinksRefer fs d skip)
    (hx : Reaches fs d ns x) (hfile : ¬ x.IsDirectory d) : x.Present fs skip d := by
  cases hx with
  | root => exact absurd trivial hfile
  | @step ns x p hx hxd hp hn =>
    have ha := reaches_directory hw hlinks hx hxd
    refine ⟨_, ha, hp, hn, fun hskip => ?_⟩
    exact hfile (hlinks _ p ha hp hn hskip).1

end Laws

end Fat32Paths
