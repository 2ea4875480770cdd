import SojebOS.ConsolePrintf

/-!
# The arguments of a format

`icmp_handle` and `test_app` have `%x` and `%zu` in their formats, and `console_printf` takes no
argument for these. The conversions behind them are made on the arguments before their own.
-/
namespace PrintfArguments

open ByteMemory MachineWord WhileLoop CStrings HashTable ConsoleScreen ConsolePrintf

def letterX : UInt8 := 120
def letterZ : UInt8 := 122
def letterU : UInt8 := 117

/-- Text without a `%`, or a conversion of the callers. -/
inductive Piece where
  | text (chars : List UInt8) (noZero : 0 ∉ chars) (noPercent : percent ∉ chars)
  | string
  | char
  | decimal
  | hex
  | size

def Piece.bytes : Piece → List UInt8
  | .text chars _ _ => chars
  | .string => [percent, letterS]
  | .char => [percent, letterC]
  | .decimal => [percent, letterD]
  | .hex => [percent, letterX]
  | .size => [percent, letterZ, letterU]

def Piece.letter : Piece → Option UInt8
  | .text _ _ _ => none
  | .string => some letterS
  | .char => some letterC
  | .decimal => some letterD
  | .hex => some letterX
  | .size => some letterZ

/-- `%s`, `%c` and `%d`. -/
def Piece.known : Piece → Bool
  | .string | .char | .decimal => true
  | .text _ _ _ | .hex | .size => false

/-- `%x` and `%zu`. -/
def Piece.unknown : Piece → Bool
  | .hex | .size => true
  | .text _ _ _ | .string | .char | .decimal => false

def render (pieces : List Piece) : List UInt8 := pieces.flatMap Piece.bytes

def position (pieces : List Piece) : ℕ := pieces.countP fun p => p.known || p.unknown

/-- A word for each conversion, which `%s` and the other known ones can print. -/
def Matching (m : Bytes) : List Piece → List UInt32 → Prop
  | [], args => args = []
  | p :: pieces, args =>
    match p.letter with
    | none => Matching m pieces args
    | some letter => ∃ arg rest, args = arg :: rest ∧
        (Takes letter → ∃ text, Prints m letter arg text) ∧ Matching m pieces rest

/-- The conversion at the index `i` takes the argument at the position `k` and prints it, while the
index, an `int`, goes to the place behind the letter. -/
def PrintsArgument (m buf : Bytes) (fmt : ℕ) (args : List UInt32) (console : Console)
    (letter : UInt8) (i k : ℕ) : Prop :=
  ∃ s t arg text, Visits (printfBody m buf fmt) ⟨console, args, 0⟩ s ∧ s.i = i ∧
    s.args = args.drop k ∧ args[k]? = some arg ∧ Prints m letter arg text ∧
    printfBody m buf fmt s = .again t ∧ t.args = args.drop (k + 1) ∧
    t.console = putText s.console text ∧ i + 2 < 2 ^ 31

def PairsArguments (m buf : Bytes) (fmt : ℕ) (pieces : List Piece) (args : List UInt32)
    (console : Console) : Prop :=
  ∀ pre p post letter, pieces = pre ++ p :: post → p.known → p.letter = some letter →
    PrintsArgument m buf fmt args console letter (render pre).length (position pre)

def KnownFirst (pieces : List Piece) : Prop :=
  ∀ pre p post, pieces = pre ++ p :: post → p.known → ∀ q ∈ pre, ¬q.unknown

/-- The index, an `int`, counts as far as to the known conversions. -/
def IndexFits (pieces : List Piece) : Prop :=
  ∀ pre p post, pieces = pre ++ p :: post → p.known → (render pre).length + 2 < 2 ^ 31

section Pieces

variable {m : Bytes} {p : Piece} {letter : UInt8} {chars rest : List UInt8} {pieces : List Piece}
  {args : List UInt32}

theorem render_cons (p : Piece) (pieces : List Piece) :
    render (p :: pieces) = p.bytes ++ render pieces := rfl

theorem render_append (pieces more : List Piece) :
    render (pieces ++ more) = render pieces ++ render more := List.flatMap_append

theorem bytes_noZero (p : Piece) : 0 ∉ p.bytes := by
  cases p with
  | text chars noZero => exact noZero
  | string => decide
  | char => decide
  | decimal => decide
  | hex => decide
  | size => decide

theorem render_noZero (pieces : List Piece) : 0 ∉ render pieces := by
  intro h
  obtain ⟨p, -, hp⟩ := List.mem_flatMap.mp h
  exact bytes_noZero p hp

def format (pieces : List Piece) : CString := ⟨render pieces, render_noZero pieces⟩

theorem known_letter (h : p.known) :
    ∃ letter, p.letter = some letter ∧ Takes letter ∧ p.bytes = [percent, letter] := by
  cases p with
  | string => exact ⟨letterS, rfl, by decide, rfl⟩
  | char => exact ⟨letterC, rfl, by decide, rfl⟩
  | decimal => exact ⟨letterD, rfl, by decide, rfl⟩
  | text | hex | size => cases h

theorem conversions_chars (h : percent ∉ chars) (rest : List UInt8) :
    conversions (chars ++ rest) = conversions rest := by
  induction chars with
  | nil => rfl
  | cons c chars ih =>
    rw [List.cons_append, conversions_text (List.ne_of_not_mem_cons h).symm]
    exact ih (List.not_mem_of_not_mem_cons h)

theorem dangling_chars (h : percent ∉ chars) (rest : List UInt8) :
    Dangling (chars ++ rest) ↔ Dangling rest := by
  induction chars with
  | nil => exact Iff.rfl
  | cons c chars ih =>
    rw [List.cons_append, dangling_text (List.ne_of_not_mem_cons h).symm]
    exact ih (List.not_mem_of_not_mem_cons h)

theorem conversions_render (pieces : List Piece) :
    conversions (render pieces) = pieces.filterMap Piece.letter := by
  induction pieces with
  | nil => rfl
  | cons p pieces ih =>
    rw [render_cons, List.filterMap_cons]
    cases p with
    | text chars _ noPercent =>
      rw [← ih]
      exact conversions_chars noPercent _
    | string | char | decimal | hex =>
      rw [← ih]
      exact conversions_percent _ _
    | size =>
      rw [← ih]
      exact (conversions_percent _ _).trans (congrArg _ (conversions_text (by decide) _))

theorem render_complete (pieces : List Piece) : ¬Dangling (render pieces) := by
  induction pieces with
  | nil => exact not_false
  | cons p pieces ih =>
    rw [render_cons]
    cases p with
    | text chars _ noPercent => exact mt (dangling_chars noPercent _).mp ih
    | string | char | decimal | hex => exact mt (dangling_percent _ _).mp ih
    | size =>
      refine mt (dangling_percent _ _).mp ?_
      exact mt (dangling_text (c := letterU) (by decide) _).mp ih

def taken (fmt : List UInt8) : ℕ := (conversions fmt).countP fun letter => Takes letter

theorem taken_render (pieces : List Piece) : taken (render pieces) = pieces.countP Piece.known := by
  rw [taken, conversions_render]
  induction pieces with
  | nil => rfl
  | cons p pieces ih =>
    rw [List.filterMap_cons, List.countP_cons, ← ih]
    cases p with
    | text => rfl
    | string | char | decimal | hex | size => exact List.countP_cons

theorem position_eq (pieces : List Piece) :
    position pieces = pieces.countP Piece.known + pieces.countP Piece.unknown := by
  unfold position
  induction pieces with
  | nil => rfl
  | cons p pieces ih =>
    rw [List.countP_cons, List.countP_cons, List.countP_cons, ih]
    cases p with
    | text => rfl
    | string | char | decimal | hex | size =>
      simp only [Piece.known, Piece.unknown, Bool.true_or, Bool.or_true, if_true,
        Bool.false_eq_true, if_false]
      omega

theorem matching_length (h : Matching m pieces args) : args.length = position pieces := by
  induction pieces generalizing args with
  | nil =>
    rw [show args = [] from h]
    rfl
  | cons p pieces ih =>
    rw [position, List.countP_cons, ← position]
    cases p with
    | text => exact ih h
    | string | char | decimal | hex | size =>
      obtain ⟨arg, rest, rfl, -, hrest⟩ := h
      rw [List.length_cons, ih hrest]
      rfl

end Pieces

section Rounds

variable {m buf : Bytes} {fmt len n whole : ℕ} {s t : Printing} {p : Piece} {letter : UInt8}
  {chars rest : List UInt8} {pre post pieces : List Piece} {args : List UInt32}

/-- Of `n` arguments those are taken that belonged to known conversions. -/
def Counted (m : Bytes) (fmt len n whole : ℕ) (s : Printing) : Prop :=
  ∃ rest, Ahead m fmt len s rest ∧ ¬Dangling rest ∧ s.args.length + whole = n + taken rest

theorem Counted.again (h : Counted m fmt len n whole s)
    (hbody : printfBody m buf fmt s = .again t) : Counted m fmt len n whole t := by
  obtain ⟨rest, hahead, hdangling, hcount⟩ := h
  have hrest : rest ≠ [percent] := by
    rintro rfl
    exact hdangling rfl
  obtain ⟨behind, hbehind, -, hiff, hletters⟩ := hahead.again hrest hbody
  refine ⟨behind, hbehind, mt hiff.mp hdangling, ?_⟩
  unfold taken at hcount ⊢
  rcases hletters with ⟨hsame, hargs⟩ | ⟨letter, hcons, console, hconvert⟩
  · rw [hargs, ← hsame]
    exact hcount
  · have hone := convert_args hconvert
    rw [hcons, List.countP_cons] at hcount
    simp only [decide_eq_true_eq] at hcount
    dsimp only at hone
    omega

theorem matching_known (h : Matching m (p :: pieces) args) (hletter : p.letter = some letter)
    (htakes : Takes letter) :
    ∃ arg rest text, args = arg :: rest ∧ Prints m letter arg text ∧ Matching m pieces rest := by
  rw [Matching, hletter] at h
  obtain ⟨arg, rest, hargs, hprints, hrest⟩ := h
  obtain ⟨text, htext⟩ := hprints htakes
  exact ⟨arg, rest, text, hargs, htext, hrest⟩

theorem chars_visits (buf : Bytes) (h : Ahead m fmt len s (chars ++ rest))
    (hchars : percent ∉ chars) :
    ∃ t, Visits (printfBody m buf fmt) s t ∧ Ahead m fmt len t rest ∧ t.args = s.args := by
  induction chars generalizing s with
  | nil => exact ⟨s, .start, h, rfl⟩
  | cons c chars ih =>
    obtain ⟨t, hbody, hahead, hargs, -⟩ := h.text buf (List.ne_of_not_mem_cons hchars).symm
    obtain ⟨u, hvisits, hrest, heq⟩ := ih hahead (List.not_mem_of_not_mem_cons hchars)
    exact ⟨u, hvisits.head hbody, hrest, heq.trans hargs⟩

theorem known_round (buf : Bytes) (h : Ahead m fmt len s (render (p :: pieces))) (hknown : p.known)
    (hargs : Matching m (p :: pieces) s.args) :
    ∃ t arg letter text, printfBody m buf fmt s = .again t ∧ Ahead m fmt len t (render pieces) ∧
      s.args = arg :: t.args ∧ Matching m pieces t.args ∧ p.letter = some letter ∧
      Prints m letter arg text ∧ t.console = putText s.console text := by
  obtain ⟨letter, hletter, htakes, hbytes⟩ := known_letter hknown
  obtain ⟨arg, rest, text, hcons, hprints, hrest⟩ := matching_known hargs hletter htakes
  rw [render_cons, hbytes] at h
  obtain ⟨t, hbody, hahead, rfl, hconsole⟩ := h.known buf hcons hprints
  exact ⟨t, arg, letter, text, hbody, hahead, hcons, hrest, hletter, hprints, hconsole⟩

theorem pieces_visits (buf : Bytes) (h : Ahead m fmt len s (render (pre ++ post)))
    (hargs : Matching m (pre ++ post) s.args) (hpre : ∀ q ∈ pre, ¬q.unknown) :
    ∃ t, Visits (printfBody m buf fmt) s t ∧ Ahead m fmt len t (render post) ∧
      t.args = s.args.drop (position pre) ∧ Matching m post t.args := by
  induction pre generalizing s with
  | nil => exact ⟨s, .start, h, rfl, hargs⟩
  | cons p pre ih =>
    have hrest : ∀ q ∈ pre, ¬q.unknown := fun q hq => hpre q (List.mem_cons_of_mem p hq)
    have hp : ¬p.unknown := hpre p List.mem_cons_self
    rw [List.cons_append] at h hargs
    rw [position, List.countP_cons, ← position]
    by_cases hknown : p.known
    · obtain ⟨t, arg, letter, text, hbody, hahead, hcons, hmatch, -⟩ :=
        known_round buf h hknown hargs
      obtain ⟨u, hvisits, hend, hdrop, hpost⟩ := ih hahead hmatch hrest
      refine ⟨u, hvisits.head hbody, hend, ?_, hpost⟩
      rw [hdrop, hcons, hknown, Bool.true_or, if_pos rfl, List.drop_succ_cons]
    · cases p with
      | text chars _ noPercent =>
        obtain ⟨t, htext, hahead, heq⟩ := chars_visits buf h noPercent
        have hmatch : Matching m (pre ++ post) t.args := heq ▸ hargs
        obtain ⟨u, hvisits, hend, hdrop, hpost⟩ := ih hahead hmatch hrest
        exact ⟨u, htext.trans hvisits, hend, heq ▸ hdrop, hpost⟩
      | string | char | decimal => exact absurd rfl hknown
      | hex | size => exact absurd rfl hp

end Rounds

section Pairing

variable {m buf : Bytes} {fmt : ℕ} {pieces pre post : List Piece} {p : Piece} {args : List UInt32}
  {console : Console}

theorem format_append (hfmt : StringAt m fmt (render (pre ++ post))) :
    StringAt m (fmt + (render pre).length) (render post) := by
  rw [render_append, StringAt, List.append_assoc] at hfmt
  exact (textAt_append.mp hfmt).2

theorem PairsArguments.knownFirst (h : PairsArguments m buf fmt pieces args console)
    (hfmt : StringAt m fmt (render pieces)) (hargs : Matching m pieces args) :
    KnownFirst pieces := by
  rintro pre p post rfl hknown q hq hunknown
  obtain ⟨letter, hletter, -⟩ := known_letter hknown
  obtain ⟨s, -, -, -, hvisits, hindex, hdrop, -⟩ := h pre p post letter rfl hknown hletter
  have hstart : Counted m fmt (render (pre ++ p :: post)).length args.length
      (taken (render (pre ++ p :: post))) ⟨console, args, 0⟩ :=
    ⟨_, ahead_start (format _) hfmt console args, render_complete _, rfl⟩
  obtain ⟨rest, hahead, -, hcount⟩ :=
    hvisits.invariant _ (fun _ _ => Counted.again) hstart
  have hrest : rest = render (p :: post) := by
    have hheld : StringAt m (fmt + s.i) (render (p :: post)) := hindex ▸ format_append hfmt
    exact congrArg Subtype.val
      (stringAt_unique (s := ⟨rest, hahead.noZero⟩) (t := format (p :: post)) hahead.held hheld)
  have hlength := matching_length hargs
  have hpos : 0 < pre.countP Piece.unknown := List.countP_pos_iff.mpr ⟨q, hq, hunknown⟩
  rw [hrest, taken_render, taken_render, List.countP_append, hdrop, List.length_drop] at hcount
  rw [position_eq, List.countP_append, List.countP_append] at hlength
  rw [position_eq] at hcount
  omega

/-- A known conversion gets its argument just when no unknown one stands before it. -/
theorem pairs_arguments_iff (m buf : Bytes) (fmt : ℕ) (pieces : List Piece) (args : List UInt32)
    (console : Console) (hfmt : StringAt m fmt (render pieces)) (hargs : Matching m pieces args) :
    PairsArguments m buf fmt pieces args console ↔ KnownFirst pieces ∧ IndexFits pieces := by
  constructor
  · intro h
    refine ⟨h.knownFirst hfmt hargs, fun pre p post hsplit hknown => ?_⟩
    obtain ⟨letter, hletter, -⟩ := known_letter hknown
    obtain ⟨s, t, arg, text, -, -, -, -, -, -, -, -, hfits⟩ :=
      h pre p post letter hsplit hknown hletter
    exact hfits
  · rintro ⟨hfirst, hfits⟩ pre p post letter rfl hknown hletter
    obtain ⟨s, hvisits, hahead, hdrop, hmatch⟩ := pieces_visits buf
      (ahead_start (format _) hfmt console args) hargs (hfirst pre p post rfl hknown)
    obtain ⟨t, arg, other, text, hbody, -, hcons, -, hother, hprints, hconsole⟩ :=
      known_round buf hahead hknown hmatch
    obtain rfl : other = letter := Option.some.inj (hother.symm.trans hletter)
    have hindex := hahead.index
    have hlen : (format (pre ++ p :: post)).val.length =
        (render pre).length + (render (p :: post)).length :=
      (congrArg List.length (render_append pre (p :: post))).trans List.length_append
    have hdropped : args.drop (position pre) = arg :: t.args := hdrop.symm.trans hcons
    refine ⟨s, t, arg, text, hvisits, by omega, hdrop, ?_, hprints, hbody, ?_, hconsole,
      hfits pre p post rfl hknown⟩
    · rw [← List.head?_drop, hdropped]
      rfl
    · rw [← List.tail_drop, hdropped]
      rfl

theorem knownFirst_of_known (h : ∀ q ∈ pieces, ¬q.unknown) : KnownFirst pieces := by
  rintro pre p post rfl - q hq
  exact h q (List.mem_append_left _ hq)

theorem indexFits_of_length (h : (render pieces).length < 2 ^ 31) : IndexFits pieces := by
  rintro pre p post rfl hknown
  obtain ⟨letter, -, -, hbytes⟩ := known_letter hknown
  rw [render_append, render_cons, hbytes, List.length_append, List.length_append] at h
  rw [List.length_cons, List.length_singleton] at h
  omega

end Pairing

/-- `"PINGing "`. -/
def pingText : List UInt8 := [80, 73, 78, 71, 105, 110, 103, 32]

theorem pingText_literal : 0 ∉ pingText ∧ percent ∉ pingText := by
  simp [pingText, percent]

def pingFormat : List Piece := [.text pingText pingText_literal.1 pingText_literal.2, .string]

/-- With the string `"10"` behind the format. -/
def pingMemory : Bytes := fun x =>
  if x < 64 then (render pingFormat).getD x 0 else [49, 48].getD (x - 64) 0

theorem pairs_arguments_ping :
    PairsArguments pingMemory (fun _ => 0) 0 pingFormat [64] ⟨fun _ => 0, 0, false⟩ :=
  (pairs_arguments_iff _ _ 0 pingFormat _ _
    ⟨rfl, rfl, rfl, rfl, rfl, rfl, rfl, rfl, rfl, rfl, rfl, trivial⟩
    ⟨64, [], rfl, fun _ => ⟨_, @Prints.string _ 64 ⟨[49, 48], by simp⟩ (by norm_num [wordCount])
      ⟨rfl, rfl, rfl, trivial⟩⟩, rfl⟩).mpr
    ⟨knownFirst_of_known (by simp [pingFormat, Piece.unknown]),
      indexFits_of_length (by simp [pingFormat, pingText, render, Piece.bytes])⟩

/-- `"Received reply from "`. -/
def icmpSender : List UInt8 :=
  [82, 101, 99, 101, 105, 118, 101, 100, 32, 114, 101, 112, 108, 121, 32, 102, 114, 111, 109, 32]

/-- `": icmp_seq="`. -/
def icmpSequence : List UInt8 := [58, 32, 105, 99, 109, 112, 95, 115, 101, 113, 61]

theorem icmpSender_literal : 0 ∉ icmpSender ∧ percent ∉ icmpSender := by
  simp [icmpSender, percent]

theorem icmpSequence_literal : 0 ∉ icmpSequence ∧ percent ∉ icmpSequence := by
  simp [icmpSequence, percent]

theorem lineEnd_literal : 0 ∉ [newlineChar] ∧ percent ∉ [newlineChar] := by
  simp [newlineChar, percent]

/-- The format of `icmp_handle`. -/
def icmpFormat : List Piece :=
  [.text icmpSender icmpSender_literal.1 icmpSender_literal.2, .hex,
    .text icmpSequence icmpSequence_literal.1 icmpSequence_literal.2, .decimal,
    .text [newlineChar] lineEnd_literal.1 lineEnd_literal.2]

/-- The `%d` prints the address of the sender. -/
theorem address_as_sequence : ¬ ∀ (m buf : Bytes) (fmt : ℕ) (pieces : List Piece)
    (args : List UInt32) (console : Console), StringAt m fmt (render pieces) →
    Matching m pieces args → (render pieces).length < 2 ^ 31 →
    PairsArguments m buf fmt pieces args console := by
  intro h
  have hfmt := stringAt_getD (render icmpFormat)
  have hargs : Matching (fun x => (render icmpFormat).getD x 0) icmpFormat [0x0A000202, 1] :=
    ⟨_, _, rfl, fun htakes => absurd htakes (by decide), _, _, rfl, fun _ => ⟨_, .decimal 1⟩, rfl⟩
  have hpairs := h _ (fun _ => 0) 0 icmpFormat _ ⟨fun _ => 0, 0, false⟩ hfmt hargs
    (by simp [icmpFormat, icmpSender, icmpSequence, render, Piece.bytes])
  exact hpairs.knownFirst hfmt hargs (icmpFormat.take 3) .decimal (icmpFormat.drop 4) rfl rfl .hex
    (List.mem_cons_of_mem _ List.mem_cons_self) rfl

end PrintfArguments
