import SojebOS.VectorRefinement
import SojebOS.ShellTokens
import SojebOS.LabelledRuns

/-!
# The commands of the shell

`register_all_apps` fills a vector with names and functions, and `shell_run` looks the first word
of a line up in it. As long as nothing else writes to the vector and to the names, every line
reaches the application that is registered under its first word.
-/
namespace CommandTable

open ByteMemory MachineWord WhileLoop CStrings ConsoleScreen LineEditing ShellTokens
open GrowableVector
open VectorRefinement (SmallHeap bytesAt bytesAt_congr contents_length push_fits)
open LabelledRuns (Run)
open HashTable (CString strcmp_eq_zero)
open KernelHeapRefinement (memcpy_outside)

inductive App where
  | hello
  | calculator
  | clear
  | ls
  | cat
  | write
  | rm
  | diskUsage
  | mkdir
  | rmdir
  | cd
  | pwd
  | commandPing
  | test
  deriving DecidableEq, Repr

/-- In the order in which they are registered. -/
def allApps : List App :=
  [.hello, .calculator, .clear, .ls, .cat, .write, .rm, .diskUsage, .mkdir, .rmdir, .cd, .pwd,
    .commandPing, .test]

def appName : App → List UInt8
  | .hello => [0x68, 0x65, 0x6C, 0x6C, 0x6F]
  | .calculator => [0x63, 0x61, 0x6C, 0x63]
  | .clear => [0x63, 0x6C, 0x65, 0x61, 0x72]
  | .ls => [0x6C, 0x73]
  | .cat => [0x63, 0x61, 0x74]
  | .write => [0x77, 0x72, 0x69, 0x74, 0x65]
  | .rm => [0x72, 0x6D]
  | .diskUsage => [0x64, 0x66]
  | .mkdir => [0x6D, 0x6B, 0x64, 0x69, 0x72]
  | .rmdir => [0x72, 0x6D, 0x64, 0x69, 0x72]
  | .cd => [0x63, 0x64]
  | .pwd => [0x70, 0x77, 0x64]
  | .commandPing => [0x70, 0x69, 0x6E, 0x67]
  | .test => [0x74, 0x65, 0x73, 0x74]

def exitName : List UInt8 := [0x65, 0x78, 0x69, 0x74]

structure Image where
  name : App → ℕ
  func : App → ℕ
  exitText : ℕ
  name_lt : ∀ a, name a < 2 ^ 32
  func_lt : ∀ a, func a < 2 ^ 32
  func_injective : Function.Injective func

/-- The fields of a `ConsoleApp`. -/
def consoleApp (m : Bytes) (newApp name func : ℕ) : Bytes :=
  store32 (store32 m newApp name) (newApp + 4) func

/-- `newApp` is the address of the local struct. The last result is whether it was pushed. -/
def registerApp (m : Bytes) (vec : Vec) (newApp name func : ℕ) (reply : Reply) :
    Bytes × Vec × Bool :=
  vectorPushBack (consoleApp m newApp name func) vec newApp reply

def registerNext (image : Image) (newApp : ℕ) (replies : App → Reply) (s : Bytes × Vec) (a : App) :
    Bytes × Vec :=
  let r := registerApp s.1 s.2 newApp (image.name a) (image.func a) (replies a)
  (r.1, r.2.1)

/-- `reply` is for `vector_init`, and `replies` for the pushes. -/
def registerAllApps (m : Bytes) (vec : Vec) (image : Image) (newApp : ℕ) (reply : Reply)
    (replies : App → Reply) : Bytes × Vec :=
  let r := vectorInit m vec 16 8 reply
  if r.2.2 then allApps.foldl (registerNext image newApp replies) (r.1, r.2.1)
  else (r.1, r.2.1)

/-- The search in `shell_run`. It leaves with the function, with nothing, or, as `none`, not from
a comparison. -/
def findBody (m : Bytes) (vec : Vec) (word i : ℕ) : Iteration ℕ (Option (Option ℕ)) :=
  if i < vec.size then
    if vectorGet vec i ≠ 0 then
      match strcmp m word (load32 m (vectorGet vec i)) with
      | none => .leave none
      | some r =>
        if r = 0 then .leave (some (some (load32 m (vectorGet vec i + 4)))) else .again (i + 1)
    else .again (i + 1)
  else .leave (some none)

def findApp (m : Bytes) (vec : Vec) (word : ℕ) : Option (Option ℕ) :=
  (run (findBody m vec word) wordCount 0).join

/-- What `shell_run` does with a line: nothing, leave its loop, call a function with `argv`, or
`exec_elf`. -/
inductive Action where
  | proceed
  | exits
  | call (func : ℕ) (argv : List ℕ)
  | exec (filename : ℕ)
  deriving DecidableEq, Repr

def shellAction (m : Bytes) (vec : Vec) (exitText : ℕ) : List ℕ → Option Action
  | [] => some .proceed
  | word :: argv =>
    (strcmp m word exitText).bind fun r =>
      if r = 0 then some .exits
      else (findApp m vec word).map fun func =>
        match func with
        | some func => .call func (word :: argv)
        | none => .exec word

/-- The memory with the words of the line cut out, and what is done. -/
def shellLine (m : Bytes) (vec : Vec) (exitText input : ℕ) : Option (Bytes × Action) :=
  (tokenize m input).join.bind fun t =>
    (shellAction t.memory vec exitText t.argv).map fun action => (t.memory, action)

inductive Handled (image : Image) (m : Bytes) (line : List UInt8) : Action → Prop where
  | proceed : words line = [] → Handled image m line .proceed
  | exits : (words line).head? = some exitName → Handled image m line .exits
  | call {a argv} : (words line).head? = some (appName a) →
      List.Forall₂ (StringAt m) argv ((words line).take 10) →
      Handled image m line (.call (image.func a) argv)
  | exec {word filename} : (words line).head? = some word → word ≠ exitName →
      (∀ a, appName a ≠ word) → StringAt m filename word → Handled image m line (.exec filename)

structure Literals (image : Image) (m : Bytes) : Prop where
  names : ∀ a, StringAt m (image.name a) (appName a)
  exitText : StringAt m image.exitText exitName

def LiteralByte (image : Image) (x : ℕ) : Prop :=
  (∃ a, image.name a ≤ x ∧ x < image.name a + (appName a ++ [0]).length) ∨
    image.exitText ≤ x ∧ x < image.exitText + (exitName ++ [0]).length

def entry (image : Image) (a : App) : List UInt8 :=
  bytesAt (consoleApp (fun _ => 0) 0 (image.name a) (image.func a)) 0 8

/-- The vector has the applications, in a block of `room` bytes. -/
structure Table (image : Image) (lo hi room : ℕ) (apps : List App) (m : Bytes) (vec : Vec) :
    Prop where
  literals : Literals image m
  elements : VectorRefinement.Invariant lo hi ⟨m, vec, fun _ => room⟩ (apps.map (entry image))
  width : vec.elementSize = 8
  capacity : vec.capacity = 16

/-- The image, the local struct of `register_app` and the heap are apart. -/
structure Layout (image : Image) (lo hi newApp : ℕ) : Prop where
  heap : SmallHeap lo hi
  nonNull : newApp ≠ 0
  top : newApp + 8 ≤ 2 ^ 32
  frame : newApp + 8 ≤ lo ∨ hi ≤ newApp
  literals : ∀ x, LiteralByte image x → (x < lo ∨ hi ≤ x) ∧ (x < newApp ∨ newApp + 8 ≤ x)

def Spares (image : Image) (vec : Vec) (room : ℕ) (m m' : Bytes) : Prop :=
  ∀ x, LiteralByte image x ∨ vec.data ≤ x ∧ x < vec.data + room → m' x = m x

/-- A round of the loop of `shell_run` on what is typed up to the newline. -/
structure Round where
  typed : List UInt8
  memory : Bytes
  action : Action

def Round.line (r : Round) : List UInt8 := r.typed.foldl (edit 64) []

def Typeable (typed : List UInt8) : Prop :=
  ∀ c ∈ typed, 1 ≤ c.toNat ∧ c.toNat ≤ 127 ∧ c ≠ newlineChar

/-- A line is read after some output, its words are cut out, and what it asks for is looked up. -/
structure Typed (image : Image) (vec : Vec) (input : ℕ) (m : Bytes) (r : Round) : Prop where
  typeable : Typeable r.typed
  reads : ∃ (s : Console) (printed : List UInt8) (u : Line),
    consoleReadLine input 64 ⟨putText (consoleClear s) printed, m, 0⟩
      (r.typed ++ [newlineChar]) = .leave u ∧
    shellLine u.memory vec image.exitText input = some (r.memory, r.action)

/-- The shell handles a line, and what is done about it spares the table. -/
def RoundStep (image : Image) (vec : Vec) (room input : ℕ) (m : Bytes) (r : Round) (m' : Bytes) :
    Prop :=
  Typed image vec input m r ∧ Spares image vec room r.memory m'

/-- The buffer of `shell_run` is apart from the heap and the literals. -/
structure Buffer (image : Image) (lo hi input : ℕ) : Prop where
  top : input + 64 ≤ wordCount
  heap : input + 64 ≤ lo ∨ hi ≤ input
  literals : ∀ x, LiteralByte image x → x < input ∨ input + 64 ≤ x

section Names

theorem appName_length (a : App) : (appName a).length ≤ 5 := by
  cases a <;> decide

theorem appName_noZero (a : App) : 0 ∉ appName a := by
  cases a <;> decide

theorem appName_ne_exit (a : App) : appName a ≠ exitName := by
  cases a <;> decide

/-- The name of the application, as `strcmp` reads it. -/
def lookup (apps : List App) (word : List UInt8) : Option App :=
  apps.find? fun a => appName a = word

theorem lookup_name (a : App) : lookup allApps (appName a) = some a := by
  cases a <;> rfl

theorem mem_allApps (a : App) : a ∈ allApps := by
  cases a <;> decide

theorem lookup_none {word : List UInt8} (h : lookup allApps word = none) (a : App) :
    appName a ≠ word := by
  have hne := List.find?_eq_none.mp h a (mem_allApps a)
  rwa [decide_eq_true_eq] at hne

theorem lookup_some {word : List UInt8} {a : App} (h : lookup allApps word = some a) :
    appName a = word :=
  of_decide_eq_true (List.find?_some (p := fun a => decide (appName a = word)) h)

end Names

section Entries

variable {image : Image} {m m' : Bytes} {p q a b : ℕ}

theorem bytesAt_inj {n : ℕ} (h : bytesAt m p n = bytesAt m' q n) {j : ℕ} (hj : j < n) :
    m (p + j) = m' (q + j) :=
  List.map_inj_left.mp h j (List.mem_range.mpr hj)

theorem consoleApp_other {x : ℕ} (h : x < p ∨ p + 8 ≤ x) : consoleApp m p a b x = m x := by
  rw [consoleApp, store32_outside (by omega), store32_outside (by omega)]

theorem consoleApp_bytes (m m' : Bytes) (p q a b : ℕ) :
    bytesAt (consoleApp m p a b) p 8 = bytesAt (consoleApp m' q a b) q 8 := by
  refine bytesAt_congr fun j hj => ?_
  interval_cases j <;> simp [consoleApp, store32, Nat.add_assoc]

theorem entry_fields {app : App} (h : bytesAt m p 8 = entry image app) :
    load32 m p = image.name app ∧ load32 m (p + 4) = image.func app := by
  have hbyte : ∀ j < 8, m (p + j) = consoleApp (fun _ => 0) 0 (image.name app) (image.func app) j :=
    fun j hj => (bytesAt_inj h hj).trans (by rw [Nat.zero_add])
  have hload : ∀ i, i + 4 ≤ 8 → load32 m (p + i) =
      load32 (consoleApp (fun _ => 0) 0 (image.name app) (image.func app)) i := by
    intro i hi
    rw [← load32_window m p i]
    exact load32_congr fun x _ _ => hbyte x (by omega)
  constructor
  · rw [← Nat.add_zero p, hload 0 (by omega), consoleApp, load32_store32_apart (by omega),
      load32_store32 (image.name_lt app)]
  · rw [hload 4 (by omega), consoleApp, Nat.zero_add, load32_store32 (image.func_lt app)]

end Entries

section Registering

variable {image : Image} {lo hi newApp room : ℕ} {apps : List App} {m m' : Bytes} {vec : Vec}

theorem Literals.congr (h : Literals image m) (hm : ∀ x, LiteralByte image x → m' x = m x) :
    Literals image m' where
  names a := (h.names a).congr fun x hx hx' => hm x (.inl ⟨a, hx, hx'⟩)
  exitText := h.exitText.congr fun x hx hx' => hm x (.inr ⟨hx, hx'⟩)

theorem Table.spared (hh : SmallHeap lo hi) (h : Table image lo hi room apps m vec)
    (hm : Spares image vec room m m') : Table image lo hi room apps m' vec := by
  have hblock : ∀ x, vec.data ≤ x → x < vec.data + room → m' x = m x :=
    fun x hx hx' => hm x (.inr ⟨hx, hx'⟩)
  have henabled : Enabled ⟨m, vec, fun _ => room⟩ (.other m') :=
    ⟨fun _ _ _ he => (by cases he), fun _ _ hr => (by cases hr)⟩
  exact ⟨h.literals.congr fun x hx => hm x (.inl hx),
    VectorRefinement.step_preserves_invariant hh h.elements henabled hblock, h.width, h.capacity⟩

theorem Table.size (h : Table image lo hi room apps m vec) : vec.size = apps.length := by
  have hlen := congrArg List.length h.elements.represents
  rwa [contents_length, List.length_map] at hlen

theorem Table.register (hl : Layout image lo hi newApp) (h : Table image lo hi room apps m vec)
    (hlen : apps.length < 16) (replies : App → Reply) (app : App) :
    let r := registerNext image newApp replies (m, vec) app
    Table image lo hi room (apps ++ [app]) r.1 r.2 := by
  have hstruct : Spares image vec room m
      (consoleApp m newApp (image.name app) (image.func app)) := by
    intro x hx
    refine consoleApp_other ?_
    have hframe := hl.frame
    have hlow := h.elements.low
    have hhigh := h.elements.high
    rcases hx with hx | ⟨hx, hx'⟩
    · exact (hl.literals x hx).2
    · simp only at hlow hhigh
      omega
  have h' := h.spared hl.heap hstruct
  have hroom := h'.elements.room
  have hhigh := h'.elements.high
  have htop := hl.heap.top
  have hsize := h.size
  have hwidth := h.width
  have hcapacity := h.capacity
  have hlt : vec.size < vec.capacity := by omega
  have htarget : target vec = vec.data + vec.size * vec.elementSize := h'.elements.slot hl.heap hlt
  rw [hwidth] at htarget
  simp only [hwidth, hcapacity] at hroom hhigh
  have hframe := hl.frame
  have hlow : lo ≤ vec.data := h.elements.low
  have htop' : newApp + vec.elementSize ≤ 2 ^ 32 := hwidth ▸ hl.top
  have hpush := push_fits hl.heap h'.elements hlt htop' (by
    simp only [hwidth]
    omega)
  have hregister : registerApp m vec newApp (image.name app) (image.func app) (replies app) =
      storeElement (consoleApp m newApp (image.name app) (image.func app)) vec newApp := by
    rw [registerApp, vectorPushBack, if_neg hl.nonNull, if_neg (by omega)]
  simp only [registerNext, hregister]
  refine ⟨h'.literals.congr fun x hx => ?_, ?_, hwidth, hcapacity⟩
  · have hapart := (hl.literals x hx).1
    simp only [storeElement, hwidth]
    exact memcpy_outside 8 (by omega) (by omega)
  · have hentry : bytesAt (consoleApp m newApp (image.name app) (image.func app)) newApp 8 =
        entry image app := consoleApp_bytes _ _ _ _ _ _
    simp only [hwidth, hentry] at hpush
    rwa [List.map_append]

theorem registerNext_fold (hl : Layout image lo hi newApp) (replies : App → Reply)
    {rest : List App} {s : Bytes × Vec} (h : Table image lo hi room apps s.1 s.2)
    (hlen : apps.length + rest.length ≤ 16) :
    let r := rest.foldl (registerNext image newApp replies) s
    Table image lo hi room (apps ++ rest) r.1 r.2 := by
  induction rest generalizing apps s with
  | nil => rwa [List.append_nil]
  | cons app rest ih =>
    rw [List.length_cons] at hlen
    have hnext := ih (h.register hl (by omega) replies app) (by
      rw [List.length_append, List.length_singleton]
      omega)
    rwa [List.append_assoc, List.singleton_append] at hnext

theorem registerAllApps_table (hl : Layout image lo hi newApp) {a : Answer} (hm : Literals image m)
    (hserved : Served 128 a) (hlo : lo ≤ a.ptr) (hhi : a.ptr + a.usable ≤ hi)
    (hkmalloc : ∀ x, x < lo ∨ hi ≤ x → a.mem x = m x) (vec : Vec) (kfree : Bytes → Bytes)
    (replies : App → Reply) :
    let r := registerAllApps m vec image newApp ⟨some a, kfree⟩ replies
    Table image lo hi a.usable allApps r.1 r.2 := by
  have hall : registerAllApps m vec image newApp ⟨some a, kfree⟩ replies =
      allApps.foldl (registerNext image newApp replies) (a.mem, ⟨a.ptr, 0, 16, 8⟩) := by
    simp only [registerAllApps, vectorInit, firstCapacity, OfNat.ofNat_ne_zero, ↓reduceIte]
  have hroom : 128 ≤ a.usable := hserved.room
  let s : Bytes × Vec := (a.mem, ⟨a.ptr, 0, 16, 8⟩)
  have hempty : Table image lo hi a.usable [] s.1 s.2 := by
    refine ⟨hm.congr fun x hx => hkmalloc x (hl.literals x hx).1, ?_, rfl, rfl⟩
    exact ⟨rfl, hserved.nonNull, by norm_num, hlo, hhi, by norm_num, by norm_num, hroom⟩
  have hfew : ([] : List App).length + allApps.length ≤ 16 := by decide
  simpa only [hall, List.nil_append, s] using registerNext_fold hl replies hempty hfew

end Registering

section Searching

variable {image : Image} {lo hi room word : ℕ} {apps rest : List App} {m : Bytes} {vec : Vec}
  {text : CString}

theorem Table.element (hh : SmallHeap lo hi) (h : Table image lo hi room apps m vec) {i : ℕ}
    {app : App} (hi : apps[i]? = some app) : vectorGet vec i ≠ 0 ∧
      load32 m (vectorGet vec i) = image.name app ∧
      load32 m (vectorGet vec i + 4) = image.func app := by
  obtain ⟨hlt, -⟩ := List.getElem?_eq_some_iff.mp hi
  rw [← h.size] at hlt
  obtain ⟨hnull, hbytes⟩ := (h.elements.refines hh).get i hlt
  rw [List.getElem?_map, hi, Option.map_some, Option.some_inj] at hbytes
  exact ⟨hnull, entry_fields (hbytes.trans (congrArg (bytesAt m _) h.width)).symm⟩

theorem strcmp_word {s t : List UInt8} {a b : ℕ} (hs : StringAt m a s) (ht : StringAt m b t)
    (hs0 : 0 ∉ s) (ht0 : 0 ∉ t) (hlen : s.length < wordCount) :
    ∃ r, strcmp m a b = some r ∧ (r = 0 ↔ s = t) :=
  ⟨_, strcmp_strings ⟨s, hs0⟩ ⟨t, ht0⟩ hs ht hlen, strcmp_eq_zero hs0 ht0⟩

theorem findApp_rounds (hh : SmallHeap lo hi) (pre : List App)
    (h : Table image lo hi room (pre ++ rest) m vec) (hword : StringAt m word text.val)
    (hlen : text.val.length < wordCount) {n : ℕ} (hn : rest.length < n) :
    run (findBody m vec word) n pre.length =
      some (some ((lookup rest text.val).map image.func)) := by
  induction rest generalizing pre n with
  | nil =>
    obtain ⟨n, rfl⟩ := Nat.exists_eq_add_of_lt hn
    refine run_leave ?_ _
    have hsize := h.size
    rw [List.append_nil] at hsize
    exact if_neg (by omega)
  | cons app rest ih =>
    rw [List.length_cons] at hn
    obtain ⟨n, rfl⟩ : ∃ k, n = k + 1 := Nat.exists_eq_succ_of_ne_zero (by omega)
    have hlt : pre.length < vec.size := by
      rw [h.size, List.length_append, List.length_cons]
      omega
    have happ : (pre ++ app :: rest)[pre.length]? = some app := by
      rw [List.getElem?_append_right le_rfl, Nat.sub_self, List.getElem?_cons_zero]
    obtain ⟨hnull, hname, hfunc⟩ := h.element hh happ
    obtain ⟨r, hstrcmp, hr⟩ := strcmp_word hword (h.literals.names app) text.property
      (appName_noZero app) hlen
    rw [← hname] at hstrcmp
    by_cases heq : appName app = text.val
    · have hbody : findBody m vec word pre.length = .leave (some (some (image.func app))) := by
        rw [findBody, if_pos hlt, if_pos hnull, hstrcmp, ← hfunc]
        exact if_pos (hr.mpr heq.symm)
      have hfind : lookup (app :: rest) text.val = some app :=
        List.find?_cons_of_pos (decide_eq_true heq)
      rw [run_leave hbody, hfind, Option.map_some]
    · have hbody : findBody m vec word pre.length = .again (pre.length + 1) := by
        rw [findBody, if_pos hlt, if_pos hnull, hstrcmp]
        exact if_neg fun h0 => heq (hr.mp h0).symm
      have hfind : lookup (app :: rest) text.val = lookup rest text.val :=
        List.find?_cons_of_neg (by simpa using heq)
      have hnext := ih (pre ++ [app]) (by rwa [List.append_assoc, List.singleton_append])
        (show rest.length < n by omega)
      rw [List.length_append, List.length_singleton] at hnext
      rw [run_again hbody, hfind, hnext]

theorem findApp_spec (text : CString) (hh : SmallHeap lo hi)
    (h : Table image lo hi room allApps m vec) (hword : StringAt m word text.val)
    (hlen : text.val.length < wordCount) :
    findApp m vec word = some ((lookup allApps text.val).map image.func) := by
  have hrun : run (findBody m vec word) wordCount 0 =
      some (some ((lookup allApps text.val).map image.func)) :=
    findApp_rounds hh [] h hword hlen (show 14 < 2 ^ 32 by norm_num)
  rw [findApp, hrun, Option.join_some]

end Searching

section Lines

variable {image : Image} {lo hi room input : ℕ} {m m' : Bytes} {vec : Vec} {line : List UInt8}
  {argv : List ℕ}

theorem word_in_line (line : List UInt8) : ∀ word ∈ words line, word <:+: line := by
  induction hn : line.length using Nat.strong_induction_on generalizing line with
  | _ n ih =>
    intro word hword
    rcases line_cases line with
      hall | ⟨spaces, token, behind, rfl, hspaces, hne, htoken, hbehind⟩
    · have hnil := words_spaces hall []
      rw [List.append_nil, words_nil] at hnil
      rw [hnil] at hword
      cases hword
    have hpos := List.length_pos_of_ne_nil hne
    simp only [List.length_append] at hn
    rw [words_spaces hspaces] at hword
    rcases hbehind with rfl | ⟨more, rfl⟩
    · rw [List.append_nil, words_single hne htoken, List.mem_singleton] at hword
      exact hword ▸ ⟨spaces, [], by rw [List.append_nil, List.append_nil]⟩
    · rw [words_token hne htoken, List.mem_cons] at hword
      rw [List.length_cons] at hn
      rcases hword with rfl | hmore
      · exact ⟨spaces, spaceChar :: more, List.append_assoc _ _ _⟩
      · obtain ⟨pre, post, rfl⟩ := ih more.length (by omega) more rfl word hmore
        exact ⟨spaces ++ token ++ spaceChar :: pre, post, by simp⟩

/-- What is done is what the first word asks for. -/
theorem shellAction_handled (hh : SmallHeap lo hi) (h : Table image lo hi room allApps m vec)
    (hzero : ∀ word ∈ words line, 0 ∉ word) (hlen : ∀ word ∈ words line, word.length < wordCount)
    (hargv : List.Forall₂ (StringAt m) argv ((words line).take 10)) :
    ∃ action, shellAction m vec image.exitText argv = some action ∧
      Handled image m line action := by
  cases hwords : words line with
  | nil =>
    rw [hwords, List.take_nil] at hargv
    cases hargv
    exact ⟨_, rfl, .proceed hwords⟩
  | cons text rest =>
    have htext : text ∈ words line := hwords ▸ List.mem_cons_self
    have hhead : (words line).head? = some text := by rw [hwords, List.head?_cons]
    have hsplit := hargv
    rw [hwords, List.take_succ_cons] at hsplit
    cases hsplit with
    | cons hword htail =>
      next word argv =>
      obtain ⟨r, hexit, hr⟩ := strcmp_word hword h.literals.exitText (hzero text htext)
        (by decide) (hlen text htext)
      simp only [shellAction, hexit, Option.bind_some]
      by_cases h0 : r = 0
      · exact ⟨_, if_pos h0, .exits (hhead.trans (congrArg some (hr.mp h0)))⟩
      rw [if_neg h0, findApp_spec ⟨text, hzero text htext⟩ hh h hword (hlen text htext)]
      cases hfound : lookup allApps text with
      | some app =>
        refine ⟨.call (image.func app) (word :: argv), by simp only [Option.map_some], ?_⟩
        exact .call (hhead.trans (congrArg some (lookup_some hfound).symm)) hargv
      | none =>
        refine ⟨.exec word, by simp only [Option.map_some, Option.map_none], ?_⟩
        exact .exec hhead (fun he => h0 (hr.mpr he)) (fun a => lookup_none hfound a) hword

theorem line_noZero {typed : List UInt8} (htyped : Typeable typed) :
    0 ∉ typed.foldl (edit 64) [] := by
  refine typed_noZero List.not_mem_nil fun c hc h0 => ?_
  have hlow := (htyped c hc).1
  rw [h0] at hlow
  exact absurd hlow (by decide)

theorem line_entered (s : Console) (printed : List UInt8) (m : Bytes) (input : ℕ)
    {typed : List UInt8} (htyped : Typeable typed) : ∃ u,
      consoleReadLine input 64 ⟨putText (consoleClear s) printed, m, 0⟩ (typed ++ [newlineChar]) =
        .leave u ∧
      Entered input 64 m u (typed.foldl (edit 64) []) := by
  have hstart : InStep input 64 m ⟨putText (consoleClear s) printed, m, 0⟩ (pageOf printed) [] :=
    inStep_start s printed m input (by norm_num)
  exact hstart.enter (by norm_num) fun c hc => (htyped c hc).2

/-- A line is read and cut without a write to the table, and what is done is what it asks for. -/
theorem line_handled (hh : SmallHeap lo hi) (hb : Buffer image lo hi input)
    (h : Table image lo hi room allApps m vec) {typed : List UInt8} (htyped : Typeable typed)
    (s : Console) (printed : List UInt8) : ∃ u m' action,
      consoleReadLine input 64 ⟨putText (consoleClear s) printed, m, 0⟩
        (typed ++ [newlineChar]) = .leave u ∧
      shellLine u.memory vec image.exitText input = some (m', action) ∧
      Spares image vec room m m' ∧ Handled image m' (typed.foldl (edit 64) []) action := by
  obtain ⟨u, hread, hentered⟩ := line_entered s printed m input htyped
  have hzero := line_noZero htyped
  have hfits := hentered.fits
  have htop := hb.top
  obtain ⟨t, htokens, htokenized⟩ := (scanning_start hentered.string hzero).ends (by omega)
  have hspares : Spares image vec room m t.memory := by
    intro x hx
    have hlow : lo ≤ vec.data := h.elements.low
    have hhigh : vec.data + room ≤ hi := h.elements.high
    have hheap := hb.heap
    have hapart : x < input ∨ input + 64 ≤ x := by
      rcases hx with hx | ⟨hx, hx'⟩
      · exact hb.literals x hx
      · omega
    rw [htokenized.other x (by omega), hentered.other x (by omega)]
  have hpart := word_in_line (typed.foldl (edit 64) [])
  obtain ⟨action, haction, hhandled⟩ := shellAction_handled hh (h.spared hh hspares)
    (fun word hword h0 => hzero ((hpart word hword).subset h0))
    (fun word hword => (hpart word hword).length_le.trans_lt (by omega))
    (htokenized.strings.imp fun _ _ hw => hw.held)
  refine ⟨u, t.memory, action, hread, ?_, hspares, hhandled⟩
  have htokenize : tokenize u.memory input = some (some t) := htokens
  rw [shellLine, htokenize, Option.join_some, Option.bind_some, haction, Option.map_some]

end Lines

section Runs

variable {image : Image} {lo hi newApp room input : ℕ} {m m' : Bytes} {vec : Vec}
  {rounds : List Round} {a : Answer}

theorem round_handled (hh : SmallHeap lo hi) (hb : Buffer image lo hi input)
    (h : Table image lo hi room allApps m vec) {r : Round}
    (hr : RoundStep image vec room input m r m') :
    Table image lo hi room allApps m' vec ∧ Handled image r.memory r.line r.action := by
  obtain ⟨⟨htyped, s, printed, u, hread, hline⟩, hspares⟩ := hr
  obtain ⟨u', m₁, action, hread', hline', hspares', hhandled⟩ :=
    line_handled hh hb h htyped s printed
  rw [hread] at hread'
  cases hread'
  rw [hline] at hline'
  cases hline'
  exact ⟨(h.spared hh hspares').spared hh hspares, hhandled⟩

theorem rounds_handled (hh : SmallHeap lo hi) (hb : Buffer image lo hi input)
    (h : Table image lo hi room allApps m vec)
    (hrun : Run (RoundStep image vec room input) m rounds m') :
    Table image lo hi room allApps m' vec ∧
      ∀ r ∈ rounds, Handled image r.memory r.line r.action := by
  induction hrun with
  | nil => exact ⟨h, fun r hr => (List.not_mem_nil hr).elim⟩
  | cons hr _ ih =>
    obtain ⟨hnext, hhandled⟩ := round_handled hh hb h hr
    obtain ⟨hend, hrest⟩ := ih hnext
    exact ⟨hend, List.forall_mem_cons.mpr ⟨hhandled, hrest⟩⟩

/-- After `register_all_apps`, in a shell that runs for any number of lines, every line is handled
as its first word asks for, and the next one is too, whatever is typed. -/
theorem session_handled (hl : Layout image lo hi newApp) (hb : Buffer image lo hi input)
    (hm : Literals image m) (hserved : Served 128 a) (hlo : lo ≤ a.ptr)
    (hhi : a.ptr + a.usable ≤ hi) (hkmalloc : ∀ x, x < lo ∨ hi ≤ x → a.mem x = m x) (vec : Vec)
    (kfree : Bytes → Bytes) (replies : App → Reply) :
    let r := registerAllApps m vec image newApp ⟨some a, kfree⟩ replies
    ∀ rounds m', Run (RoundStep image r.2 a.usable input) r.1 rounds m' →
      (∀ round ∈ rounds, Handled image round.memory round.line round.action) ∧
      ∀ typed, Typeable typed → ∀ s printed, ∃ u m₁ action,
        consoleReadLine input 64 ⟨putText (consoleClear s) printed, m', 0⟩
          (typed ++ [newlineChar]) = .leave u ∧
        shellLine u.memory r.2 image.exitText input = some (m₁, action) ∧
        Handled image m₁ (typed.foldl (edit 64) []) action := by
  intro r rounds m' hrun
  have htable := registerAllApps_table hl hm hserved hlo hhi hkmalloc vec kfree replies
  obtain ⟨hend, hhandled⟩ := rounds_handled hl.heap hb htable hrun
  refine ⟨hhandled, fun typed htyped s printed => ?_⟩
  obtain ⟨u, m₁, action, hread, hline, -, hnext⟩ := line_handled hl.heap hb hend htyped s printed
  exact ⟨u, m₁, action, hread, hline, hnext⟩

/-- The literals in slots of 16 bytes from 0x1000 on. -/
def tinyImage : Image where
  name a := 0x1000 + 16 * allApps.idxOf a
  func a := 0x2000 + allApps.idxOf a
  exitText := 0x1100
  name_lt a := by cases a <;> decide
  func_lt a := by cases a <;> decide
  func_injective a b h := (List.idxOf_inj (mem_allApps a)).mp (Nat.add_left_cancel h)

def tinyMemory : Bytes := fun x =>
  if x / 16 = 0x110 then exitName.getD (x % 16) 0
  else ((allApps.map appName).getD (x / 16 - 0x100) []).getD (x % 16) 0

theorem tinyMemory_literals : Literals tinyImage tinyMemory where
  names a := textAt_iff.mpr (by cases a <;> decide)
  exitText := textAt_iff.mpr (by decide)

theorem tinyImage_literalByte {x : ℕ} (h : LiteralByte tinyImage x) : 0x1000 ≤ x ∧ x < 0x1110 := by
  rcases h with ⟨a, hx, hx'⟩ | ⟨hx, hx'⟩
  · have hlen := appName_length a
    have hindex : allApps.idxOf a < 14 := List.idxOf_lt_length_of_mem (mem_allApps a)
    simp only [tinyImage, List.length_append, List.length_singleton] at hx hx'
    omega
  · simp only [tinyImage, exitName, List.length_append, List.length_cons, List.length_nil] at hx hx'
    omega

theorem tinyImage_layout : Layout tinyImage 0x4000 0x5000 0x2800 where
  heap := ⟨by norm_num, by norm_num⟩
  nonNull := by norm_num
  top := by norm_num
  frame := .inl (by norm_num)
  literals x hx := by
    have hlow := tinyImage_literalByte hx
    omega

theorem tinyImage_buffer : Buffer tinyImage 0x4000 0x5000 0x3000 where
  top := by norm_num [wordCount]
  heap := .inl (by norm_num)
  literals x hx := by
    have hlow := tinyImage_literalByte hx
    omega

theorem tinyBlock_served : Served 128 ⟨0x4000, 128, tinyMemory⟩ where
  nonNull := by norm_num
  word := by norm_num
  room := by decide
  top := by norm_num

/-- The line `rm x`, after a block of 128 bytes for the table. -/
theorem session_handled_rm :
    let r := registerAllApps tinyMemory ⟨0, 0, 0, 0⟩ tinyImage 0x2800
      ⟨some ⟨0x4000, 128, tinyMemory⟩, id⟩ fun _ => ⟨none, id⟩
    ∃ round m', round.typed = [0x72, 0x6D, 0x20, 0x78] ∧
      Run (RoundStep tinyImage r.2 128 0x3000) r.1 [round] m' ∧
      Handled tinyImage round.memory round.line round.action := by
  intro r
  have hsession := session_handled tinyImage_layout tinyImage_buffer tinyMemory_literals
    tinyBlock_served le_rfl (by norm_num) (fun _ _ => rfl) ⟨0, 0, 0, 0⟩ id fun _ => ⟨none, id⟩
  obtain ⟨-, hnext⟩ := hsession [] r.1 (.nil r.1)
  have htyped : Typeable [0x72, 0x6D, 0x20, 0x78] := by
    simp [Typeable, newlineChar]
  obtain ⟨u, m', action, hread, hline, -⟩ := hnext _ htyped ⟨fun _ => 0, 0, false⟩ []
  have hstep : RoundStep tinyImage r.2 128 0x3000 r.1 ⟨_, m', action⟩ m' :=
    ⟨⟨htyped, _, _, u, hread, hline⟩, fun _ _ => rfl⟩
  obtain ⟨hhandled, -⟩ := hsession _ m' (.single hstep)
  exact ⟨_, m', rfl, .single hstep, hhandled _ (List.mem_singleton_self _)⟩

end Runs

end CommandTable
