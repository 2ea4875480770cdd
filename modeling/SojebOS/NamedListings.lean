import Mathlib.Logic.Function.Basic
import Mathlib.Logic.Relation
import Mathlib.Data.List.Basic

/-!
# Directories as partial maps from names

What a file system is for, without disks: every directory lists files and directories under
names, and a session stands in one of the directories. A request changes what one directory
lists under one name, or where the session stands, or it is refused.
-/
namespace NamedListings

variable {ι ν α : Type*}

inductive Node (ι α : Type*) where
  | file (contents : α)
  | directory (id : ι)

/-- What every directory lists under every name. -/
abbrev Listing (ι ν α : Type*) := ι → ν → Option (Node ι α)

section Paths

variable {m m' : Listing ι ν α} {root a b : ι} {n : ν} {path : List ν}

def Listing.Leads (m : Listing ι ν α) (a b : ι) : Prop := ∃ n, m a n = some (.directory b)

def Listing.Reaches (m : Listing ι ν α) (root : ι) : ι → Prop := Relation.ReflTransGen m.Leads root

def Listing.walk (m : Listing ι ν α) : ι → List ν → Option ι
  | a, [] => some a
  | a, n :: path =>
    match m a n with
    | some (.directory b) => m.walk b path
    | _ => none

theorem walk_directory (h : m a n = some (.directory b)) :
    m.walk a (n :: path) = m.walk b path := by
  simp only [Listing.walk, h]

theorem walk_refused (h : ∀ b, m a n ≠ some (.directory b)) : m.walk a (n :: path) = none := by
  rw [Listing.walk]
  split
  · next b hb => exact absurd hb (h b)
  · rfl

theorem walk_reaches (ha : m.Reaches root a) (h : m.walk a path = some b) : m.Reaches root b := by
  induction path generalizing a with
  | nil =>
    obtain rfl : a = b := Option.some.inj h
    exact ha
  | cons n path ih =>
    by_cases hd : ∃ c, m a n = some (.directory c)
    · obtain ⟨c, hc⟩ := hd
      rw [walk_directory hc] at h
      exact ih (ha.tail ⟨n, hc⟩) h
    · rw [walk_refused (not_exists.mp hd)] at h
      cases h

end Paths

section Updates

variable [DecidableEq ι] [DecidableEq ν] {m : Listing ι ν α} {a b : ι} {k n : ν}

/-- The directory `a` lists `x` under the name, or nothing. -/
def Listing.assign (m : Listing ι ν α) (a : ι) (n : ν) (x : Option (Node ι α)) : Listing ι ν α :=
  Function.update m a (Function.update (m a) n x)

@[simp] theorem assign_same (m : Listing ι ν α) (a : ι) (n : ν) (x : Option (Node ι α)) :
    m.assign a n x a n = x := by
  simp [Listing.assign]

theorem assign_other (x : Option (Node ι α)) (h : b ≠ a ∨ k ≠ n) :
    m.assign a n x b k = m b k := by
  unfold Listing.assign
  by_cases hb : b = a
  · subst hb
    rw [Function.update_self, Function.update_of_ne (h.resolve_left fun hne => hne rfl)]
  · rw [Function.update_of_ne hb]

/-- What a new directory lists: itself and its parent. -/
def dots (here up : ν) (c parent : ι) : ν → Option (Node ι α) :=
  Function.update (Function.update (fun _ => none) up (some (.directory parent))) here
    (some (.directory c))

end Updates

section Sessions

variable [DecidableEq ι] [DecidableEq ν]

structure Session (ι ν α : Type*) where
  listing : Listing ι ν α
  current : ι

inductive Request (ν α : Type*) where
  | write (n : ν) (contents : α)
  | make (n : ν)
  | remove (n : ν)
  | removeEmpty (n : ν)
  | change (absolute : Bool) (path : List ν)

inductive Answer where
  | done
  | refused
  deriving DecidableEq, Repr

/-- The fixed names and identities of a file system. The names of `passed` do not keep a
directory from being empty. -/
structure Frame (ι ν : Type*) where
  root : ι
  here : ν
  up : ν
  passed : ν → Prop

def Session.put (s : Session ι ν α) (n : ν) (x : Option (Node ι α)) : Session ι ν α :=
  { s with listing := s.listing.assign s.current n x }

/-- The new directory `c` is listed, and lists itself and the current directory. -/
def Session.mount (s : Session ι ν α) (f : Frame ι ν) (n : ν) (c : ι) : Session ι ν α :=
  { s with
    listing := Function.update (s.listing.assign s.current n (some (.directory c))) c
      (dots f.here f.up c s.current) }

def Session.origin (s : Session ι ν α) (f : Frame ι ν) (absolute : Bool) : ι :=
  if absolute then f.root else s.current

/-- What a request does. Nothing is ever listed twice, a new directory is none that was there
before, and a change of directory is refused only when the path leads nowhere. -/
inductive Effect (f : Frame ι ν) : Session ι ν α → Request ν α × Answer → Session ι ν α → Prop where
  | write {s n x} : s.listing s.current n = none →
      Effect f s (.write n x, .done) (s.put n (some (.file x)))
  | writeRefused {s n x} : Effect f s (.write n x, .refused) s
  | make {s n c} : s.listing s.current n = none → ¬ s.listing.Reaches f.root c →
      Effect f s (.make n, .done) (s.mount f n c)
  | makeRefused {s n} : Effect f s (.make n, .refused) s
  | remove {s n} : Effect f s (.remove n, .done) (s.put n none)
  | removeEmpty {s n c} : s.listing s.current n = some (.directory c) →
      (∀ k x, s.listing c k = some x → f.passed k) →
      Effect f s (.removeEmpty n, .done) (s.put n none)
  | removeEmptyRefused {s n} : Effect f s (.removeEmpty n, .refused) s
  | change {s absolute path b} : s.listing.walk (s.origin f absolute) path = some b →
      Effect f s (.change absolute path, .done) { s with current := b }
  | changeRefused {s absolute path} : s.listing.walk (s.origin f absolute) path = none →
      Effect f s (.change absolute path, .refused) s

end Sessions

end NamedListings
