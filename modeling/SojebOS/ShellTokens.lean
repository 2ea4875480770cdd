import SojebOS.LineEditing

/-!
# The words of a command line

`shell_run` cuts its buffer into words in place: the space behind a word becomes a terminator, and
the scan goes on behind it. What is ahead of the scan is a string up to the end of the line, and
what is behind it is not written again.
-/
namespace ShellTokens

open ByteMemory MachineWord WhileLoop CStrings HashTable ConsoleScreen LineEditing

/-- `while (...) ptr++;` with a condition on `*ptr`. -/
def scanBody (m : Bytes) (p : UInt8 → Prop) [DecidablePred p] (ptr : ℕ) : Iteration ℕ ℕ :=
  if p (m ptr) then .again (ptr + 1) else .leave ptr

def skipBody (m : Bytes) : ℕ → Iteration ℕ ℕ := scanBody m fun c => c = spaceChar

def tokenBody (m : Bytes) : ℕ → Iteration ℕ ℕ := scanBody m fun c => c ≠ spaceChar ∧ c ≠ 0

/-- The memory with the input, and `argv` up to `argc`. -/
structure Tokens where
  memory : Bytes
  ptr : ℕ
  argv : List ℕ

/-- `*ptr != '\0' && argc < 10` -/
def Goes (s : Tokens) : Prop := s.memory s.ptr ≠ 0 ∧ s.argv.length < 10

instance : DecidablePred Goes := fun _ => inferInstanceAs (Decidable (_ ∧ _))

/-- `none` where one of the loops would read for ever. -/
def tokenizeBody (s : Tokens) : Iteration Tokens (Option Tokens) :=
  if Goes s then
    match run (skipBody s.memory) wordCount s.ptr with
    | none => .leave none
    | some ptr =>
      if s.memory ptr = 0 then .leave (some { s with ptr := ptr })
      else
        match run (tokenBody s.memory) wordCount ptr with
        | none => .leave none
        | some stop =>
          if s.memory stop ≠ 0 then
            .again ⟨store8 s.memory stop 0, stop + 1, s.argv ++ [ptr]⟩
          else .again ⟨s.memory, stop, s.argv ++ [ptr]⟩
  else .leave (some s)

def tokenize (m : Bytes) (input : ℕ) : Option (Option Tokens) :=
  run tokenizeBody wordCount ⟨m, input, []⟩

/-- The addresses at which the loops read a character. -/
inductive Reads (m : Bytes) (input : ℕ) : ℕ → Prop where
  | outer {s} : Visits tokenizeBody ⟨m, input, []⟩ s → Reads m input s.ptr
  | skip {s ptr} : Visits tokenizeBody ⟨m, input, []⟩ s → Goes s →
      Visits (skipBody s.memory) s.ptr ptr → Reads m input ptr
  | token {s ptr stop} : Visits tokenizeBody ⟨m, input, []⟩ s → Goes s →
      run (skipBody s.memory) wordCount s.ptr = some ptr →
      s.memory ptr ≠ 0 → Visits (tokenBody s.memory) ptr stop → Reads m input stop

/-- The maximal runs of characters that are not spaces. -/
def words (line : List UInt8) : List (List UInt8) :=
  (line.splitOnP fun c => c = spaceChar).filter fun word => word ≠ []

structure WordAt (m : Bytes) (input stop : ℕ) (p : ℕ) (word : List UInt8) : Prop where
  held : StringAt m p word
  above : input ≤ p
  below : p + word.length ≤ stop

/-- The arguments are the first ten words of the line, and only the line is written. -/
structure Tokenized (m : Bytes) (input : ℕ) (line : List UInt8) (t : Tokens) : Prop where
  argc : t.argv.length = min 10 (words line).length
  strings : List.Forall₂ (WordAt t.memory input (input + line.length)) t.argv ((words line).take 10)
  other : ∀ x, x < input ∨ input + line.length ≤ x → t.memory x = m x

section Words

variable {c : UInt8} {line spaces token : List UInt8}

theorem words_nil : words [] = [] := rfl

theorem words_spaces (h : ∀ c ∈ spaces, c = spaceChar) (line : List UInt8) :
    words (spaces ++ line) = words line := by
  induction spaces with
  | nil => rfl
  | cons c spaces ih =>
    have hc : c = spaceChar := h c List.mem_cons_self
    rw [List.cons_append, words, List.splitOnP_cons_eq_if_modifyHead,
      if_pos (decide_eq_true hc),
      List.filter_cons_of_neg (by simp)]
    exact ih fun d hd => h d (List.mem_cons_of_mem c hd)

theorem no_space (h : spaceChar ∉ token) (c : UInt8) (hc : c ∈ token) :
    decide (c = spaceChar) = false :=
  decide_eq_false fun he => h (he ▸ hc)

theorem words_token (hne : token ≠ []) (htoken : spaceChar ∉ token) (line : List UInt8) :
    words (token ++ spaceChar :: line) = token :: words line := by
  rw [words, List.splitOnP_append_cons_of_forall_mem (no_space htoken) _ (decide_eq_true rfl)]
  exact List.filter_cons_of_pos (decide_eq_true hne)

theorem words_single (hne : token ≠ []) (htoken : spaceChar ∉ token) : words token = [token] := by
  rw [words, List.splitOnP_eq_singleton (no_space htoken)]
  exact List.filter_cons_of_pos (decide_eq_true hne)

/-- A line has spaces only, or a first word behind its leading spaces. -/
theorem line_cases (line : List UInt8) : (∀ c ∈ line, c = spaceChar) ∨
    ∃ spaces token behind, line = spaces ++ (token ++ behind) ∧ (∀ c ∈ spaces, c = spaceChar) ∧
      token ≠ [] ∧ spaceChar ∉ token ∧ (behind = [] ∨ ∃ more, behind = spaceChar :: more) := by
  rcases first_or_none (fun c => c ≠ spaceChar) line with hall | ⟨spaces, c, rest, rfl, hc, hspaces⟩
  · exact .inl fun c hc => not_not.mp (hall c hc)
  have hspaces : ∀ c ∈ spaces, c = spaceChar := fun c hc => not_not.mp (hspaces c hc)
  rcases first_or_none (fun d => d = spaceChar) (c :: rest) with
    hnone | ⟨token, d, more, hsplit, rfl, htoken⟩
  · refine .inr ⟨spaces, c :: rest, [], ?_, hspaces, List.cons_ne_nil c rest,
      fun h => hnone _ h rfl, .inl rfl⟩
    rw [List.append_nil]
  · refine .inr ⟨spaces, token, spaceChar :: more, by rw [hsplit], hspaces, ?_,
      fun h => htoken _ h rfl, .inr ⟨more, rfl⟩⟩
    rintro rfl
    exact hc (List.cons.inj hsplit).1

end Words

/-- What is not yet read is a string from `ptr` to the end of the line. -/
structure Unread (m : Bytes) (stop ptr : ℕ) (rest : List UInt8) : Prop where
  held : StringAt m ptr rest
  noZero : 0 ∉ rest
  index : ptr + rest.length = stop

section Scans

variable {m : Bytes} {p : UInt8 → Prop} [DecidablePred p] {stop ptr q n : ℕ}
  {pre rest : List UInt8} {c : UInt8}

theorem Unread.drop (h : Unread m stop ptr (pre ++ rest)) :
    Unread m stop (ptr + pre.length) rest := by
  obtain ⟨hheld, hzero, hindex⟩ := h
  rw [StringAt, List.append_assoc] at hheld
  rw [List.length_append] at hindex
  exact ⟨(textAt_append.mp hheld).2, fun h => hzero (List.mem_append_right pre h), by omega⟩

theorem Unread.tail (h : Unread m stop ptr (c :: rest)) : Unread m stop (ptr + 1) rest := by
  rw [← List.singleton_append] at h
  exact h.drop

theorem Unread.head (h : Unread m stop ptr (c :: rest)) : m ptr = c ∧ c ≠ 0 :=
  ⟨h.held.1, (List.ne_of_not_mem_cons h.noZero).symm⟩

theorem Unread.zero_iff (h : Unread m stop ptr rest) : m ptr = 0 ↔ rest = [] := by
  cases rest with
  | nil => exact iff_of_true h.held.1 rfl
  | cons c rest => exact iff_of_false (h.head.1.symm ▸ h.head.2) (List.cons_ne_nil c rest)

theorem Unread.le (h : Unread m stop ptr rest) : ptr ≤ stop :=
  h.index ▸ Nat.le_add_right ptr _

theorem scan_run (h : Unread m stop ptr (pre ++ rest)) (hpre : ∀ c ∈ pre, p c)
    (hrest : ¬p (m (ptr + pre.length))) (hn : pre.length < n) :
    run (scanBody m p) n ptr = some (ptr + pre.length) := by
  induction pre generalizing ptr n with
  | nil =>
    obtain ⟨n, rfl⟩ := Nat.exists_eq_add_of_lt hn
    have hbody : scanBody m p ptr = .leave ptr := if_neg hrest
    exact run_leave hbody _
  | cons c pre ih =>
    rw [List.length_cons] at hn
    obtain ⟨n, rfl⟩ : ∃ k, n = k + 1 := Nat.exists_eq_succ_of_ne_zero (by omega)
    have hbody : scanBody m p ptr = .again (ptr + 1) :=
      if_pos (h.head.1.symm ▸ hpre c List.mem_cons_self)
    have hlen : ptr + (c :: pre).length = ptr + 1 + pre.length := by
      rw [List.length_cons]
      omega
    rw [hlen] at hrest ⊢
    rw [run_again hbody]
    exact ih h.tail (fun d hd => hpre d (List.mem_cons_of_mem c hd)) hrest (by omega)

theorem scan_visits (hp : ¬p 0) (h : Unread m stop ptr rest)
    (hvisits : Visits (scanBody m p) ptr q) : ptr ≤ q ∧ ∃ rest, Unread m stop q rest := by
  refine hvisits.invariant (fun q => ptr ≤ q ∧ ∃ rest, Unread m stop q rest) ?_ ⟨le_rfl, rest, h⟩
  rintro q r ⟨hle, rest, hunread⟩ hbody
  rw [scanBody] at hbody
  split_ifs at hbody with hchar
  cases hbody
  cases rest with
  | nil => exact absurd (hunread.held.1 ▸ hchar) hp
  | cons c rest => exact ⟨by omega, rest, hunread.tail⟩

theorem scan_last (h : run (scanBody m p) n ptr = some q) : Visits (scanBody m p) ptr q := by
  obtain ⟨r, hvisits, hleave⟩ := run_visits h
  rw [scanBody] at hleave
  split_ifs at hleave
  cases hleave
  exact hvisits

end Scans

section Body

variable {s : Tokens} {ptr stop : ℕ}

theorem tokenizeBody_stop (h : ¬Goes s) : tokenizeBody s = .leave (some s) := if_neg h

theorem tokenizeBody_blank (h : Goes s) (hskip : run (skipBody s.memory) wordCount s.ptr = some ptr)
    (hzero : s.memory ptr = 0) : tokenizeBody s = .leave (some { s with ptr := ptr }) := by
  rw [tokenizeBody.eq_def, if_pos h, hskip]
  exact if_pos hzero

theorem tokenizeBody_cut (h : Goes s) (hskip : run (skipBody s.memory) wordCount s.ptr = some ptr)
    (hptr : s.memory ptr ≠ 0) (htoken : run (tokenBody s.memory) wordCount ptr = some stop)
    (hstop : s.memory stop ≠ 0) :
    tokenizeBody s = .again ⟨store8 s.memory stop 0, stop + 1, s.argv ++ [ptr]⟩ := by
  rw [tokenizeBody.eq_def, if_pos h, hskip]
  dsimp only
  rw [if_neg hptr, htoken]
  exact if_pos hstop

theorem tokenizeBody_last (h : Goes s) (hskip : run (skipBody s.memory) wordCount s.ptr = some ptr)
    (hptr : s.memory ptr ≠ 0) (htoken : run (tokenBody s.memory) wordCount ptr = some stop)
    (hstop : s.memory stop = 0) :
    tokenizeBody s = .again ⟨s.memory, stop, s.argv ++ [ptr]⟩ := by
  rw [tokenizeBody.eq_def, if_pos h, hskip]
  dsimp only
  rw [if_neg hptr, htoken]
  exact if_neg (not_not.mpr hstop)

end Body

/-- The words that are found are strings behind the scan, and the others are ahead of it. -/
structure Scanning (m : Bytes) (input : ℕ) (line : List UInt8) (s : Tokens)
    (found : List (List UInt8)) (rest : List UInt8) : Prop where
  unread : Unread s.memory (input + line.length) s.ptr rest
  start : input ≤ s.ptr
  strings : List.Forall₂ (WordAt s.memory input s.ptr) s.argv found
  few : s.argv.length ≤ 10
  split : words line = found ++ words rest
  other : ∀ x, x < input ∨ input + line.length ≤ x → s.memory x = m x

section Rounds

variable {m : Bytes} {input stop ptr x p : ℕ} {s t : Tokens} {line word rest spaces token behind
  more : List UInt8} {found : List (List UInt8)}

theorem WordAt.store (h : WordAt m input ptr p word) (hx : ptr ≤ x) (hm : m x ≠ 0)
    (hle : ptr ≤ stop) : WordAt (store8 m x 0) input stop p word := by
  obtain ⟨hheld, habove, hbelow⟩ := h
  refine ⟨hheld.congr fun y _ hy => ?_, habove, hbelow.trans hle⟩
  rw [List.length_append, List.length_singleton] at hy
  by_cases hend : y = p + word.length
  · rw [store8_other]
    rintro rfl
    exact hm (hend ▸ hheld.terminator)
  · exact store8_other (by omega)

theorem WordAt.mono (h : WordAt m input ptr p word) (hle : ptr ≤ stop) :
    WordAt m input stop p word :=
  ⟨h.held, h.above, h.below.trans hle⟩

theorem Scanning.tokenized (h : Scanning m input line s found rest)
    (hend : words rest = [] ∨ ¬s.argv.length < 10) (ptr : ℕ) :
    Tokenized m input line { s with ptr := ptr } := by
  have hlen : s.argv.length = found.length := h.strings.length_eq
  have hfew := h.few
  have htake : (words line).take 10 = found := by
    rcases hend with hend | hend
    · rw [h.split, hend, List.append_nil, List.take_of_length_le (by omega)]
    · rw [h.split, List.take_append_of_le_length (by omega), List.take_of_length_le (by omega)]
  refine ⟨?_, ?_, h.other⟩
  · rw [← List.length_take, htake]
    exact hlen
  · rw [htake]
    exact h.strings.imp fun p word hword => hword.mono h.unread.le

theorem Unread.scans (h : Unread m stop ptr (spaces ++ (token ++ behind))) (hlen : stop < wordCount)
    (hspaces : ∀ c ∈ spaces, c = spaceChar) (hne : token ≠ []) (htoken : spaceChar ∉ token)
    (hbehind : behind = [] ∨ ∃ more, behind = spaceChar :: more) :
    run (skipBody m) wordCount ptr = some (ptr + spaces.length) ∧ m (ptr + spaces.length) ≠ 0 ∧
      run (tokenBody m) wordCount (ptr + spaces.length) =
        some (ptr + spaces.length + token.length) := by
  have hindex := h.index
  have hword := h.drop
  rw [List.length_append, List.length_append] at hindex
  obtain ⟨c, token', hcons⟩ := List.exists_cons_of_ne_nil hne
  have hhead : m (ptr + spaces.length) = c ∧ c ≠ 0 := by
    rw [hcons, List.cons_append] at hword
    exact hword.head
  refine ⟨?_, hhead.1.symm ▸ hhead.2, ?_⟩
  · refine scan_run h hspaces ?_ (by omega)
    rw [hhead.1]
    rintro rfl
    exact htoken (hcons ▸ List.mem_cons_self)
  · refine scan_run hword (fun d hd => ⟨fun he => htoken (he ▸ hd), ?_⟩) ?_ (by omega)
    · rintro rfl
      exact hword.noZero (List.mem_append_left behind hd)
    · rcases hbehind with rfl | ⟨more, rfl⟩
      · exact fun hchar => hchar.2 hword.drop.held.1
      · exact fun hchar => hchar.1 hword.drop.held.1

theorem Scanning.add (h : Scanning m input line s found (spaces ++ (token ++ behind)))
    (hgoes : Goes s) (ht : t.argv = s.argv ++ [p]) (hle : s.ptr ≤ t.ptr)
    (hunread : Unread t.memory (input + line.length) t.ptr rest)
    (hkept : ∀ q word, WordAt s.memory input s.ptr q word → WordAt t.memory input t.ptr q word)
    (hword : WordAt t.memory input t.ptr p token)
    (hrest : words (spaces ++ (token ++ behind)) = token :: words rest)
    (hother : ∀ x, x < input ∨ input + line.length ≤ x → t.memory x = s.memory x) :
    Scanning m input line t (found ++ [token]) rest := by
  refine ⟨hunread, h.start.trans hle, ?_, ?_, ?_, fun x hx => (hother x hx).trans (h.other x hx)⟩
  · rw [ht]
    exact List.rel_append (h.strings.imp hkept) (.cons hword .nil)
  · rw [ht, List.length_append, List.length_singleton]
    exact hgoes.2
  · rw [h.split, hrest, List.append_assoc, List.singleton_append]

theorem Scanning.blank (h : Scanning m input line s found rest) (hgoes : Goes s)
    (hlen : input + line.length < wordCount) (hall : ∀ c ∈ rest, c = spaceChar) :
    ∃ t, tokenizeBody s = .leave (some t) ∧ Tokenized m input line t := by
  have hunread := h.unread
  have hindex := hunread.index
  have hnil : words rest = [] := by
    have hspaces := words_spaces hall []
    rw [List.append_nil, words_nil] at hspaces
    exact hspaces
  rw [← List.append_nil rest] at hunread
  have hend : s.memory (s.ptr + rest.length) = 0 := hunread.drop.held.1
  have hskip : run (skipBody s.memory) wordCount s.ptr = some (s.ptr + rest.length) :=
    scan_run hunread hall (by rw [hend]; decide) (by omega)
  exact ⟨_, tokenizeBody_blank hgoes hskip hend, h.tokenized (.inl hnil) _⟩

theorem Scanning.last (h : Scanning m input line s found (spaces ++ (token ++ [])))
    (hgoes : Goes s) (hlen : input + line.length < wordCount)
    (hspaces : ∀ c ∈ spaces, c = spaceChar) (hne : token ≠ []) (htoken : spaceChar ∉ token) :
    ∃ t found rest, tokenizeBody s = .again t ∧ Scanning m input line t found rest ∧
      s.ptr < t.ptr := by
  obtain ⟨hskip, hptr, hscan⟩ := h.unread.scans hlen hspaces hne htoken (.inl rfl)
  have hword := h.unread.drop
  have hpos := List.length_pos_of_ne_nil hne
  have hstart := h.start
  have hend : s.memory (s.ptr + spaces.length + token.length) = 0 := hword.drop.held.1
  refine ⟨_, _, [], tokenizeBody_last hgoes hskip hptr hscan hend,
    h.add hgoes rfl ?_ hword.drop ?_ ?_ ?_ fun x _ => rfl, ?_⟩
  · dsimp only
    omega
  · intro q word hq
    exact hq.mono (by dsimp only; omega)
  · rw [List.append_nil] at hword
    exact ⟨hword.held, by omega, le_rfl⟩
  · rw [words_spaces hspaces, List.append_nil, words_single hne htoken]
    rfl
  · dsimp only
    omega

theorem Scanning.cut (h : Scanning m input line s found (spaces ++ (token ++ spaceChar :: more)))
    (hgoes : Goes s) (hlen : input + line.length < wordCount)
    (hspaces : ∀ c ∈ spaces, c = spaceChar) (hne : token ≠ []) (htoken : spaceChar ∉ token) :
    ∃ t found rest, tokenizeBody s = .again t ∧ Scanning m input line t found rest ∧
      s.ptr < t.ptr := by
  obtain ⟨hskip, hptr, hscan⟩ := h.unread.scans hlen hspaces hne htoken (.inr ⟨more, rfl⟩)
  have hword := h.unread.drop
  have hmore := hword.drop.tail
  have hindex := hmore.index
  have hstart := h.start
  have hspace : s.memory (s.ptr + spaces.length + token.length) ≠ 0 := by
    rw [hword.drop.head.1]
    decide
  refine ⟨_, _, more, tokenizeBody_cut hgoes hskip hptr hscan hspace,
    h.add hgoes rfl ?_ ⟨?_, hmore.noZero, hindex⟩ ?_ ?_ ?_ fun x hx => ?_, ?_⟩
  · dsimp only
    omega
  · exact hmore.held.congr fun x hx _ => store8_other (by omega)
  · intro q word hq
    exact hq.store (by omega) hspace (by dsimp only; omega)
  · refine ⟨textAt_append.mpr ⟨?_, store8_same _ _ _, trivial⟩, by omega, ?_⟩
    · have htext : TextAt s.memory (s.ptr + spaces.length) token :=
        (textAt_append.mp (textAt_append.mp hword.held).1).1
      exact htext.congr fun x _ hx => store8_other (by omega)
    · dsimp only
      omega
  · rw [words_spaces hspaces, words_token hne htoken]
  · exact store8_other (by omega)
  · dsimp only
    omega

theorem Scanning.round (h : Scanning m input line s found rest)
    (hlen : input + line.length < wordCount) :
    (∃ t found rest, tokenizeBody s = .again t ∧ Scanning m input line t found rest ∧
      s.ptr < t.ptr) ∨
    ∃ t, tokenizeBody s = .leave (some t) ∧ Tokenized m input line t := by
  by_cases hgoes : Goes s
  · rcases line_cases rest with
      hall | ⟨spaces, token, behind, rfl, hspaces, hne, htoken, rfl | ⟨more, rfl⟩⟩
    · exact .inr (h.blank hgoes hlen hall)
    · exact .inl (h.last hgoes hlen hspaces hne htoken)
    · exact .inl (h.cut hgoes hlen hspaces hne htoken)
  · refine .inr ⟨_, tokenizeBody_stop hgoes, h.tokenized ?_ s.ptr⟩
    by_cases hzero : s.memory s.ptr = 0
    · rw [h.unread.zero_iff.mp hzero]
      exact .inl words_nil
    · exact .inr fun hlt => hgoes ⟨hzero, hlt⟩

theorem Scanning.again (h : Scanning m input line s found rest)
    (hlen : input + line.length < wordCount) (hbody : tokenizeBody s = .again t) :
    ∃ found rest, Scanning m input line t found rest := by
  rcases h.round hlen with ⟨u, found, rest, hround, hscanning, -⟩ | ⟨u, hround, -⟩
  · rw [hround] at hbody
    cases hbody
    exact ⟨found, rest, hscanning⟩
  · rw [hround] at hbody
    cases hbody

theorem Scanning.ends (h : Scanning m input line s found rest)
    (hlen : input + line.length < wordCount) :
    ∃ t, run tokenizeBody wordCount s = some (some t) ∧ Tokenized m input line t := by
  have hend : ∃ r, run tokenizeBody wordCount s = some r ∧
      ∃ t, r = some t ∧ Tokenized m input line t := by
    refine run_total (fun s => ∃ found rest, Scanning m input line s found rest) _
      (fun s => input + line.length - s.ptr) ?_ ⟨found, rest, h⟩ (by omega)
    rintro s ⟨found, rest, h⟩
    rcases h.round hlen with ⟨t, found, rest, hbody, hscanning, hlt⟩ | ⟨t, hbody, htokenized⟩
    · have hle := hscanning.unread.le
      exact .inl ⟨t, hbody, ⟨found, rest, hscanning⟩, by omega⟩
    · exact .inr ⟨some t, hbody, t, rfl, htokenized⟩
  obtain ⟨r, hrun, t, rfl, htokenized⟩ := hend
  exact ⟨t, hrun, htokenized⟩

end Rounds

section Lines

variable {m : Bytes} {input a : ℕ} {line : List UInt8}

theorem scanning_start (hline : StringAt m input line) (hzero : 0 ∉ line) :
    Scanning m input line ⟨m, input, []⟩ [] line :=
  ⟨⟨hline, hzero, rfl⟩, le_rfl, .nil, Nat.zero_le _, rfl, fun _ _ => rfl⟩

theorem reads_inside (hline : StringAt m input line) (hzero : 0 ∉ line)
    (hlen : input + line.length < wordCount) (h : Reads m input a) :
    input ≤ a ∧ a ≤ input + line.length := by
  have hkept : ∀ s, Visits tokenizeBody ⟨m, input, []⟩ s →
      ∃ found rest, Scanning m input line s found rest := by
    intro s hs
    refine hs.invariant (fun s => ∃ found rest, Scanning m input line s found rest) ?_
      ⟨[], line, scanning_start hline hzero⟩
    rintro s t ⟨found, rest, h⟩ hbody
    exact h.again hlen hbody
  cases h with
  | outer hs =>
    obtain ⟨found, rest, h⟩ := hkept _ hs
    exact ⟨h.start, h.unread.le⟩
  | skip hs _ hskip =>
    obtain ⟨found, rest, h⟩ := hkept _ hs
    obtain ⟨hle, rest, hunread⟩ := scan_visits (by decide) h.unread hskip
    exact ⟨h.start.trans hle, hunread.le⟩
  | token hs _ hskip _ htoken =>
    obtain ⟨found, rest, h⟩ := hkept _ hs
    obtain ⟨hle, rest, hword⟩ := scan_visits (by decide) h.unread (scan_last hskip)
    obtain ⟨hle', rest, hunread⟩ := scan_visits (by decide) hword htoken
    exact ⟨h.start.trans (hle.trans hle'), hunread.le⟩

/-- The line is cut into its words, up to ten of them, without a read behind its terminator. -/
theorem tokenize_words (m : Bytes) (input : ℕ) (line : List UInt8) (hline : StringAt m input line)
    (hzero : 0 ∉ line) (hlen : input + line.length < wordCount) :
    (∃ t, tokenize m input = some (some t) ∧ Tokenized m input line t) ∧
      ∀ a, Reads m input a → input ≤ a ∧ a ≤ input + line.length :=
  ⟨(scanning_start hline hzero).ends hlen, fun _ h => reads_inside hline hzero hlen h⟩

/-- `"  cat  a.txt "`. -/
theorem tokenize_words_cat :
    (∃ t, tokenize (fun x => [32, 32, 99, 97, 116, 32, 32, 97, 46, 116, 120, 116, 32].getD x 0) 0 =
        some (some t) ∧
      Tokenized (fun x => [32, 32, 99, 97, 116, 32, 32, 97, 46, 116, 120, 116, 32].getD x 0) 0
        [32, 32, 99, 97, 116, 32, 32, 97, 46, 116, 120, 116, 32] t) ∧
      ∀ a, Reads (fun x => [32, 32, 99, 97, 116, 32, 32, 97, 46, 116, 120, 116, 32].getD x 0) 0 a →
        0 ≤ a ∧ a ≤ 0 + 13 :=
  tokenize_words _ 0 [32, 32, 99, 97, 116, 32, 32, 97, 46, 116, 120, 116, 32] (stringAt_getD _)
    (by simp) (by norm_num [wordCount])

end Lines

section Typing

variable {maxLen : ℤ} {c : UInt8} {chars typed : List UInt8}

theorem edit_noZero (h : 0 ∉ chars) (hc : c ≠ 0) : 0 ∉ edit maxLen chars c := by
  unfold edit
  split_ifs
  · exact fun hmem => h (List.mem_of_mem_dropLast hmem)
  · rw [List.mem_append, List.mem_singleton]
    exact fun hmem => hmem.elim h hc.symm
  · exact h

theorem typed_noZero (h : 0 ∉ chars) (htyped : ∀ c ∈ typed, c ≠ 0) :
    0 ∉ typed.foldl (edit maxLen) chars := by
  induction typed generalizing chars with
  | nil => exact h
  | cons c typed ih =>
    exact ih (edit_noZero h (htyped c List.mem_cons_self))
      fun d hd => htyped d (List.mem_cons_of_mem c hd)

theorem typed_words (s : Console) (printed : List UInt8) (m : Bytes) (input : ℕ)
    (hinput : input + 64 ≤ wordCount)
    (htyped : ∀ c ∈ typed, 1 ≤ c.toNat ∧ c.toNat ≤ 127 ∧ c ≠ newlineChar) :
    ∃ u t, consoleReadLine input 64 ⟨putText (consoleClear s) printed, m, 0⟩
        (typed ++ [newlineChar]) = .leave u ∧
      tokenize u.memory input = some (some t) ∧
      Tokenized u.memory input (typed.foldl (edit 64) []) t := by
  have hstart : InStep input 64 m ⟨putText (consoleClear s) printed, m, 0⟩ (pageOf printed) [] :=
    inStep_start s printed m input (by norm_num)
  obtain ⟨u, hread, hentered⟩ := hstart.enter (by norm_num) fun c hc => (htyped c hc).2
  have hzero : 0 ∉ typed.foldl (edit 64) [] := by
    refine typed_noZero List.not_mem_nil fun c hc => ?_
    rintro rfl
    exact absurd (htyped 0 hc).1 (by decide)
  have hfits := hentered.fits
  obtain ⟨t, hrun, htokens⟩ := (scanning_start hentered.string hzero).ends (by omega)
  exact ⟨u, t, hread, hrun, htokens⟩

end Typing

end ShellTokens
