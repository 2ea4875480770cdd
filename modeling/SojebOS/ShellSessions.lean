import SojebOS.CommandTable
import SojebOS.Fat32ListingRuns
import SojebOS.Fat32FileReaders

/-!
# Sessions of typed lines

The applications of `coreutils.c` hand the words of a line to the driver. A session of typed
lines does to the listing of the disk what its lines say, and `cat` prints what they wrote.
-/
namespace ShellSessions

open ByteMemory MachineWord WhileLoop CStrings ConsoleScreen LineEditing ShellTokens
open NamedListings CommandTable
open Fat32Disk Fat32Directory Fat32Files Fat32Tree Fat32Layout Fat32Volume Fat32UniqueNames
open Fat32FileReaders Fat32RoundTrip Fat32ReadSlices Fat32TreeInvariant Fat32PathComposition
open Fat32Listing Fat32ListingRuns
open HashTable (CString)
open GrowableVector (Vec Served)
open VectorRefinement (SmallHeap)
open LabelledRuns (Run Lazy)

structure Ran where
  call : Option FileCall
  text : String

/-- The characters of a `char *`. -/
def cString (m : Bytes) (p : ℕ) : Option (List UInt8) :=
  (strlen m p).map fun n => (List.range n).map (window m p)

def writeApp (m : Bytes) (argv : List ℕ) : Option Ran :=
  if argv.length < 3 then some ⟨none, "Usage: write <filename> <content>\n"⟩
  else
    (cString m (argv.getD 1 0)).bind fun filename =>
      (strlen m (argv.getD 2 0)).map fun size =>
        ⟨some (.writeFile filename (window m (argv.getD 2 0)) size),
          "File written successfully!\n"⟩

def nameApp (usage text : String) (call : List UInt8 → FileCall) (m : Bytes) (argv : List ℕ) :
    Option Ran :=
  if argv.length < 2 then some ⟨none, usage⟩
  else (cString m (argv.getD 1 0)).map fun s => ⟨some (call s), text⟩

def rmApp : Bytes → List ℕ → Option Ran :=
  nameApp "Usage: rm <filename>\n" "File deleted successfully!\n" .deleteFile

def mkdirApp : Bytes → List ℕ → Option Ran := nameApp "Usage: mkdir <dirname>\n" "" .createDirectory

def rmdirApp : Bytes → List ℕ → Option Ran := nameApp "Usage: rmdir <dirname>\n" "" .rmdir

def cdApp : Bytes → List ℕ → Option Ran := nameApp "Usage: cd <path>\n" "" .cd

/-- The call with which a command changes the disk or the current directory. The other
applications have none. -/
def appCall (m : Bytes) (argv : List ℕ) : App → Option (Option FileCall)
  | .write => (writeApp m argv).map Ran.call
  | .rm => (rmApp m argv).map Ran.call
  | .mkdir => (mkdirApp m argv).map Ran.call
  | .rmdir => (rmdirApp m argv).map Ran.call
  | .cd => (cdApp m argv).map Ran.call
  | _ => some none

def appRequest : App → List (List UInt8) → Option (Request (List UInt8) StoredFile)
  | .write, filename :: content :: _ =>
    some (.write (formatFilename filename) ⟨content.length, content⟩)
  | .rm, filename :: _ => some (.remove (formatFilename filename))
  | .mkdir, dirname :: _ => some (.make (formatFilename dirname))
  | .rmdir, dirname :: _ => some (.removeEmpty (formatFilename dirname))
  | .cd, path :: _ =>
    some (.change (decide (path.getD 0 0 = slash)) (pathNames (path.length + 1) path))
  | _, _ => none

def lineRequest (line : List UInt8) : Option (Request (List UInt8) StoredFile) :=
  ((words line).head?.bind (lookup allApps)).bind fun a => appRequest a (words line).tail

/-- A line about which no application calls the driver to change anything, or one with such a
call, clean, and its answer. -/
inductive Step (fs : Fat32) (image : Image) (vec : Vec) (room input : ℕ) :
    Bytes × Bytes × ℕ → Round × Option Answer → Bytes × Bytes × ℕ → Prop where
  | quiet {m s r m'} : RoundStep image vec room input m r m' → r.action ≠ .exits →
      (∀ a argv, r.action = .call (image.func a) argv → appCall r.memory argv a = some none) →
      Step fs image vec room input (m, s) (r, none) (m', s)
  | file {m s r m' a argv call ans t} : RoundStep image vec room input m r m' →
      r.action = .call (image.func a) argv → appCall r.memory argv a = some (some call) →
      CleanStep fs s (call, ans) t → Step fs image vec room input (m, s) (r, some ans) (m', t)

def asked (l : Round × Option Answer) : Option (Request (List UInt8) StoredFile × Answer) :=
  (lineRequest l.1.line).bind fun request => l.2.map fun ans => (request, ans)

section Words

variable {m : Bytes} {p : ℕ} {word : List UInt8}

theorem cString_word (h : StringAt m p word) (hzero : 0 ∉ word) (hlen : word.length < wordCount) :
    strlen m p = some word.length ∧ cString m p = some word ∧
      (List.range word.length).map (window m p) = word := by
  have hlength : strlen m p = some word.length := strlen_string ⟨word, hzero⟩ h hlen
  have htext : (List.range word.length).map (window m p) = word := by
    refine List.ext_getElem (by simp) fun i hi hi' => ?_
    rw [List.getElem_map, List.getElem_range]
    exact textAt_iff.mp h.chars i hi'
  exact ⟨hlength, by rw [cString, hlength, Option.map_some, htext], htext⟩

structure Arguments (m : Bytes) (argv : List ℕ) (ws : List (List UInt8)) : Prop where
  held : List.Forall₂ (StringAt m) argv (ws.take 10)
  noZero : ∀ word ∈ ws, 0 ∉ word
  short : ∀ word ∈ ws, word.length < wordCount

variable {argv : List ℕ} {ws : List (List UInt8)} {k : ℕ}

theorem Arguments.length (h : Arguments m argv ws) : argv.length = min 10 ws.length := by
  rw [h.held.length_eq, List.length_take]

theorem Arguments.get (h : Arguments m argv ws) (hk : k < 10) (hword : ws[k]? = some word) :
    StringAt m (argv.getD k 0) word ∧ 0 ∉ word ∧ word.length < wordCount := by
  have hmem := List.mem_of_getElem? hword
  obtain ⟨hlt, hget⟩ := List.getElem?_eq_some_iff.mp hword
  have hlen := h.length
  have hargv : k < argv.length := by omega
  have htake : k < (ws.take 10).length := by
    rw [List.length_take]
    omega
  have hheld := h.held.get hargv htake
  rw [List.get_eq_getElem, List.get_eq_getElem, List.getElem_take, hget] at hheld
  rw [List.getD_eq_getElem _ _ hargv]
  exact ⟨hheld, h.noZero word hmem, h.short word hmem⟩

theorem nameApp_request (usage text : String) (call : List UInt8 → FileCall) {first : List UInt8}
    {args : List (List UInt8)} (h : Arguments m argv (first :: args)) :
    (nameApp usage text call m argv).map Ran.call = some (args.head?.map call) := by
  have hlen := h.length
  rw [List.length_cons] at hlen
  unfold nameApp
  cases args with
  | nil =>
    rw [List.length_nil] at hlen
    rw [if_pos (by omega)]
    rfl
  | cons name args =>
    rw [List.length_cons] at hlen
    obtain ⟨hheld, hzero, hshort⟩ := h.get (show 1 < 10 by norm_num)
      (show (first :: name :: args)[1]? = some name from rfl)
    rw [if_neg (by omega), (cString_word hheld hzero hshort).2.1]
    rfl

theorem writeApp_request {first : List UInt8} {args : List (List UInt8)}
    (h : Arguments m argv (first :: args)) : ∃ c,
    (writeApp m argv).map Ran.call = some c ∧ c.map FileCall.request = appRequest .write args := by
  have hlen := h.length
  rw [List.length_cons] at hlen
  unfold writeApp
  match args with
  | [] | [_] =>
    simp only [List.length_cons, List.length_nil] at hlen
    rw [if_pos (by omega)]
    exact ⟨none, rfl, rfl⟩
  | filename :: content :: args =>
    simp only [List.length_cons] at hlen
    obtain ⟨hname, hnameZero, hnameShort⟩ := h.get (show 1 < 10 by norm_num)
      (show (first :: filename :: content :: args)[1]? = some filename from rfl)
    obtain ⟨hdata, hdataZero, hdataShort⟩ := h.get (show 2 < 10 by norm_num)
      (show (first :: filename :: content :: args)[2]? = some content from rfl)
    obtain ⟨hsize, -, hbytes⟩ := cString_word hdata hdataZero hdataShort
    rw [if_neg (by omega), (cString_word hname hnameZero hnameShort).2.1, Option.bind_some, hsize]
    refine ⟨_, rfl, ?_⟩
    simp only [Option.map_some, FileCall.request, hbytes, appRequest]

theorem appCall_request (a : App) {first : List UInt8} {args : List (List UInt8)}
    (h : Arguments m argv (first :: args)) :
    ∃ c, appCall m argv a = some c ∧ c.map FileCall.request = appRequest a args := by
  cases a with
  | write => exact writeApp_request h
  | rm | mkdir | rmdir | cd =>
    refine ⟨_, nameApp_request _ _ _ h, ?_⟩
    cases args <;> rfl
  | _ => exact ⟨none, rfl, rfl⟩

end Words

section Lines

variable {fs : Fat32} {image : Image} {lo hi room input : ℕ} {m m' : Bytes} {vec : Vec} {r : Round}
  {argv : List ℕ} {a : App}

theorem lineRequest_none (h : ∀ a, (words r.line).head? ≠ some (appName a)) :
    lineRequest r.line = none := by
  rw [lineRequest, Option.bind_eq_none_iff]
  intro a ha
  obtain ⟨word, hword, hfound⟩ := Option.bind_eq_some_iff.mp ha
  exact absurd (hword.trans (congrArg some (lookup_some hfound).symm)) (h a)

theorem lineRequest_app (h : (words r.line).head? = some (appName a)) :
    lineRequest r.line = appRequest a (words r.line).tail := by
  rw [lineRequest, h, Option.bind_some, lookup_name, Option.bind_some]

theorem line_arguments (h : Typeable r.typed)
    (hargv : List.Forall₂ (StringAt m) argv ((words r.line).take 10)) :
    Arguments m argv (words r.line) := by
  have hzero : 0 ∉ r.line := line_noZero h
  obtain ⟨u, -, hentered⟩ := line_entered ⟨fun _ => 0, 0, false⟩ [] (fun _ => 0) 0 h
  have hfits : (r.line.length : ℤ) < 64 := hentered.fits
  have hwords : 64 < wordCount := by norm_num [wordCount]
  refine ⟨hargv, fun word hword h0 => hzero ((word_in_line r.line word hword).subset h0), ?_⟩
  intro word hword
  have hlen := (word_in_line r.line word hword).length_le
  omega

theorem asked_none (h : lineRequest r.line = none) (ans : Option Answer) :
    asked (r, ans) = none := by
  rw [asked, h, Option.bind_none]

theorem step_asks (hh : SmallHeap lo hi) (hb : Buffer image lo hi input) {s t : Bytes × ℕ}
    {l : Round × Option Answer} {v : Session ℕ (List UInt8) StoredFile}
    (h : Table image lo hi room allApps m vec) (hv : Represents fs s v)
    (hstep : Step fs image vec room input (m, s) l (m', t)) :
    Table image lo hi room allApps m' vec ∧
      ∃ w, Lazy (Effect (volumeFrame fs)) v (asked l) w ∧ Represents fs t w := by
  cases hstep with
  | @quiet _ _ r _ hround hexit hcall =>
    obtain ⟨htable, hhandled⟩ := round_handled hh hb h hround
    refine ⟨htable, v, ?_, hv⟩
    have hnone : lineRequest r.line = none := by
      generalize r.action = action at hhandled hexit hcall
      cases hhandled with
      | proceed hwords =>
        refine lineRequest_none fun a ha => ?_
        rw [hwords] at ha
        cases ha
      | exits => exact absurd rfl hexit
      | @call a argv hhead hargv =>
        obtain ⟨rest, hwords⟩ := List.head?_eq_some_iff.mp hhead
        have harguments := line_arguments hround.1.typeable hargv
        obtain ⟨c, hc, hrequest⟩ := appCall_request a (hwords ▸ harguments)
        rw [hcall a argv rfl, Option.some_inj] at hc
        rw [lineRequest_app hhead, hwords, List.tail_cons, ← hrequest, ← hc, Option.map_none]
      | exec hhead _ hother _ =>
        exact lineRequest_none fun a ha => hother a (Option.some_inj.mp (ha.symm.trans hhead))
    rw [asked_none hnone]
    exact .skip v
  | @file _ _ r _ a argv call ans _ hround haction hcall hclean =>
    obtain ⟨htable, hhandled⟩ := round_handled hh hb h hround
    obtain ⟨w, heffect, hw⟩ := call_refines hv hclean
    refine ⟨htable, w, ?_, hw⟩
    have hrequest : lineRequest r.line = some call.request := by
      generalize r.action = action at hhandled haction
      cases hhandled with
      | @call b argv' hhead hargv =>
        obtain ⟨hfunc, rfl⟩ := Action.call.inj haction
        obtain rfl : b = a := image.func_injective hfunc
        obtain ⟨rest, hwords⟩ := List.head?_eq_some_iff.mp hhead
        have harguments := line_arguments hround.1.typeable hargv
        obtain ⟨c, hc, hrequest⟩ := appCall_request b (hwords ▸ harguments)
        rw [hcall, Option.some_inj] at hc
        rw [lineRequest_app hhead, hwords, List.tail_cons, ← hrequest, ← hc, Option.map_some]
      | proceed | exits | exec => cases haction
    rw [asked, hrequest, Option.bind_some, Option.map_some]
    exact .act heffect

end Lines

section Printing

variable {fs : Fat32} {d : Bytes} {cwd : ℕ} {v : VolumeListing} {name : List UInt8} {f : StoredFile}

/-- What `cat` prints of a name in a directory that lists it or does not. -/
structure CatPrints (fs : Fat32) (d : Bytes) (cwd : ℕ) (v : VolumeListing) (name : List UInt8) :
    Prop where
  absent : v cwd (formatFilename name) = none →
    fat32Cat fs d cwd name = some (.error "File not found.\n")
  file : ∀ f, v cwd (formatFilename name) = some (.file f) → f.size < 2 ^ 31 → 0 ∉ f.bytes →
    fat32Cat fs d cwd name = some (.ok (f.bytes ++ [newline]))

theorem cat_reads {entry : Fat32DirEntry} (hspc : 1 ≤ fs.sectorsPerCluster)
    (hsize : entry.fileSize < 2 ^ 31) (hzero : 0 ∉ (storedFile fs d entry).bytes)
    (hfind : fat32FindFile fs d cwd name = some (some entry)) :
    fat32Cat fs d cwd name = some (.ok ((storedFile fs d entry).bytes ++ [newline])) := by
  obtain ⟨bytes, hloop⟩ := readLoop_ends (d := d) (a := entry.firstCluster) hspc hsize
  have hread : fat32ReadAbsolute fs d entry.firstCluster 0 entry.fileSize = some bytes :=
    (readAbsolute_zero (Nat.mul_pos hspc (by norm_num)) _ _).trans hloop
  have hbytes : (storedFile fs d entry).bytes = bytes := by
    rw [storedFile, hread, Option.getD_some]
  have hstart : entry.firstCluster = entry.firstCluster ∧ 0 = 0 ∧
      Prints ⟨entry.fileSize, 0, []⟩ (entry.fileSize, []) := ⟨rfl, rfl, rfl, rfl, .inl rfl⟩
  have hrel := run_simulation (fun _ _ => catBody_prints fs d) wordCount
    (s := (entry.firstCluster, 0, ⟨entry.fileSize, 0, []⟩))
    (t := (entry.firstCluster, entry.fileSize, [])) hstart
  rw [hloop] at hrel
  rw [hbytes] at hzero ⊢
  generalize hrun : run (catBody fs d) wordCount (entry.firstCluster, entry.fileSize, []) = x
    at hrel
  cases hrel with
  | some hprinted =>
    rw [fat32Cat, hfind, Option.bind_eq_bind, Option.bind_some]
    simp only [hrun, Option.bind_eq_bind, Option.bind_some, hprinted.resolve_right hzero]
    rfl

theorem cat_prints (h : NamedTree fs d cwd) (hm : Shows fs d v) (name : List UInt8) :
    CatPrints fs d cwd v name := by
  constructor
  · intro hnone
    rw [fat32Cat, (findFile_new_iff h hm).mpr hnone]
    rfl
  · intro f hf hsize hzero
    obtain ⟨p, -, he, hfind⟩ := lookup_listed h hm hf
    unfold entryNode at he
    split at he
    · cases he
    · obtain rfl : storedFile fs d (readEntry d p) = f := by injection he
      exact cat_reads (NamedTree.geometry h).perCluster_pos hsize hzero hfind

end Printing

section Runs

variable {fs : Fat32} {image : Image} {lo hi newApp room input : ℕ} {m m' : Bytes} {vec : Vec}
  {s t : Bytes × ℕ} {lines : List (Round × Option Answer)}

structure ShownAs (fs : Fat32) (t : Bytes × ℕ) (v : Session ℕ (List UInt8) StoredFile) : Prop where
  current : v.current = t.2
  answers : ∀ name, Answered fs t.1 t.2 v.listing name
  prints : ∀ name, CatPrints fs t.1 t.2 v.listing name
  leads : ∀ path, fat32Cd fs t.1 t.2 path = some (entered t.2
    (v.listing.walk (startCluster fs t.2 path) (pathNames (path.length + 1) path)))

theorem lines_represent (hh : SmallHeap lo hi) (hb : Buffer image lo hi input)
    (h : Table image lo hi room allApps m vec) {v : Session ℕ (List UInt8) StoredFile}
    (hv : Represents fs s v) (hrun : Run (Step fs image vec room input) (m, s) lines (m', t)) :
    ∃ w, Run (Effect (volumeFrame fs)) v (lines.map asked).reduceOption w ∧ Represents fs t w := by
  obtain ⟨w, hw, -, hrep⟩ := hrun.simulation
    (fun s v => Table image lo hi room allApps s.1 vec ∧ Represents fs s.2 v) asked
    (fun s l t v hs hstep => by
      obtain ⟨htable, w, hlazy, hw⟩ := step_asks hh hb hs.1 hs.2 hstep
      exact ⟨w, hlazy, htable, hw⟩) ⟨h, hv⟩
  exact ⟨w, hw.busy, hrep⟩

/-- A session of lines, from `register_all_apps` on and however many, does to the listing of the
disk what its lines say, and the disk then shows that listing. -/
theorem lines_refine_listing (hl : Layout image lo hi newApp) (hb : Buffer image lo hi input)
    (hm : Literals image m) {block : GrowableVector.Answer} (hserved : Served 128 block)
    (hlo : lo ≤ block.ptr) (hhi : block.ptr + block.usable ≤ hi)
    (hkmalloc : ∀ x, x < lo ∨ hi ≤ x → block.mem x = m x) (vec : Vec) (kfree : Bytes → Bytes)
    (replies : App → GrowableVector.Reply) (hs : NamedTree fs s.1 s.2) :
    let r := registerAllApps m vec image newApp ⟨some block, kfree⟩ replies
    ∀ lines m' t, Run (Step fs image r.2 block.usable input) (r.1, s) lines (m', t) →
      ∃ v, Run (Effect (volumeFrame fs)) ⟨listingOf fs s.1, s.2⟩ (lines.map asked).reduceOption v ∧
        ShownAs fs t v := by
  intro r lines m' t hrun
  have htable := registerAllApps_table hl hm hserved hlo hhi hkmalloc vec kfree replies
  have hstart : Represents fs s ⟨listingOf fs s.1, s.2⟩ := ⟨hs, shows_listingOf hs, rfl⟩
  obtain ⟨v, hv, h, hshows, hcurrent⟩ := lines_represent hl.heap hb htable hstart hrun
  exact ⟨v, hv, hcurrent, answered h hshows, cat_prints h hshows, cd_walk h hshows⟩

theorem handled_app {line : List UInt8} {action : Action} {a : App}
    (h : Handled image m line action) (hhead : (words line).head? = some (appName a)) :
    ∃ argv, action = .call (image.func a) argv ∧
      List.Forall₂ (StringAt m) argv ((words line).take 10) := by
  cases h with
  | proceed hwords =>
    rw [hwords] at hhead
    cases hhead
  | exits hexit => exact absurd (Option.some_inj.mp (hhead.symm.trans hexit)) (appName_ne_exit a)
  | @call b argv hcall hargv =>
    have hname := Option.some_inj.mp (hhead.symm.trans hcall)
    obtain rfl : b = a := by
      have hfound := lookup_name b
      rw [← hname, lookup_name, Option.some_inj] at hfound
      exact hfound.symm
    exact ⟨argv, rfl, hargv⟩
  | exec hword _ hother _ => exact absurd (Option.some_inj.mp (hhead.symm.trans hword)) (hother a)

/-- `mkdir D` is typed on the blank volume. -/
theorem lines_refine_listing_mkdir :
    let r := registerAllApps tinyMemory ⟨0, 0, 0, 0⟩ tinyImage 0x2800
      ⟨some ⟨0x4000, 128, tinyMemory⟩, id⟩ fun _ => ⟨none, id⟩
    ∃ round m', round.typed = [0x6D, 0x6B, 0x64, 0x69, 0x72, 0x20, 0x44] ∧
      Run (Step tinyVolume tinyImage r.2 128 0x3000) (r.1, blankDisk, 2) [(round, some .done)]
        (m', Fat32TreeGrowth.oneDirectory, 2) ∧
      ∃ v, Run (Effect (volumeFrame tinyVolume)) ⟨listingOf tinyVolume blankDisk, 2⟩
          ([(round, some .done)].map asked).reduceOption v ∧
        ShownAs tinyVolume (Fat32TreeGrowth.oneDirectory, 2) v := by
  intro r
  have hrefines := lines_refine_listing tinyImage_layout tinyImage_buffer tinyMemory_literals
    tinyBlock_served le_rfl (by norm_num) (fun _ _ => rfl) ⟨0, 0, 0, 0⟩ id (fun _ => ⟨none, id⟩)
    (s := (blankDisk, 2)) blankDisk_named
  have htable := registerAllApps_table tinyImage_layout tinyMemory_literals tinyBlock_served le_rfl
    (by norm_num) (fun _ _ => rfl) ⟨0, 0, 0, 0⟩ id fun _ => ⟨none, id⟩
  have htyped : Typeable [0x6D, 0x6B, 0x64, 0x69, 0x72, 0x20, 0x44] := by
    simp [Typeable, newlineChar]
  obtain ⟨u, m', action, hread, hline, -, hhandled⟩ := line_handled tinyImage_layout.heap
    tinyImage_buffer htable htyped ⟨fun _ => 0, 0, false⟩ []
  have hround : RoundStep tinyImage r.2 128 0x3000 r.1 ⟨_, m', action⟩ m' :=
    ⟨⟨htyped, _, _, u, hread, hline⟩, fun _ _ => rfl⟩
  have hwords : words ([0x6D, 0x6B, 0x64, 0x69, 0x72, 0x20, 0x44].foldl (edit 64) []) =
      [appName .mkdir, [0x44]] := by decide +kernel
  obtain ⟨argv, haction, hargv⟩ := handled_app hhandled (a := .mkdir) (by rw [hwords]; rfl)
  have hcall : appCall m' argv .mkdir = some (some (.createDirectory [0x44])) := by
    have harguments := line_arguments (r := ⟨_, m', action⟩) htyped hargv
    have harguments' : Arguments m' argv [appName .mkdir, [0x44]] := hwords ▸ harguments
    exact nameApp_request _ _ _ harguments'
  have hrun := Run.single (Step.file hround haction hcall blankDisk_made)
  obtain ⟨v, hv, hshown⟩ := hrefines _ _ _ hrun
  exact ⟨_, m', rfl, hrun, v, hv, hshown⟩

end Runs

end ShellSessions
