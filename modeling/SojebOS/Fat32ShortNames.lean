import SojebOS.Fat32NameSearch
import SojebOS.Fat32DirectoryWalks

/-!
# 8.3 names and the names that a listing prints

The encoder copies at most 8 characters of the base and looks for a dot right behind them: a
longer base hides the extension. What is printed for an encoded name is encoded to the same
name again, so a name that a listing shows is found when it is typed.
-/
namespace Fat32ShortNames

open ByteMemory MachineWord WhileLoop LinkedChain WalkCycles
open Fat32Disk Fat32Directory Fat32Files Fat32Tree Fat32Volume Fat32Entries
open Fat32PathText Fat32DirectoryWalks Fat32NameSearch

def basePart (s : List UInt8) : List UInt8 := s.takeWhile (· ≠ dot)

def extensionPart (s : List UInt8) : List UInt8 := (s.dropWhile (· ≠ dot)).tail

/-- The first `n` characters in upper case. -/
def upperTake (n : ℕ) (part : List UInt8) : List UInt8 := (part.take n).map toUpper

/-- The first `n` characters in upper case, and spaces up to `n`. -/
def field (n : ℕ) (part : List UInt8) : List UInt8 := pad n (upperTake n part)

def encoding83 (s : List UInt8) : List UInt8 :=
  field 8 (basePart s) ++ field 3 (extensionPart s)

structure FileName (s : List UInt8) : Prop where
  no_nul : 0 ∉ s
  not_dot : s ≠ [dot]
  not_dotDot : s ≠ [dot, dot]

/-- The extension is not behind a base of more than 8 characters. -/
def ExtensionSeen (s : List UInt8) : Prop := (basePart s).length ≤ 8

instance : DecidablePred ExtensionSeen := fun s =>
  inferInstanceAs (Decidable ((basePart s).length ≤ 8))

def BlankExtension (s : List UInt8) : Prop := ∀ c ∈ (extensionPart s).take 3, c = space

def seenExtension (s : List UInt8) : List UInt8 := if ExtensionSeen s then extensionPart s else []

/-- The extensions differ in their first three characters, whatever their case. -/
def ExtensionsDiffer (s t : List UInt8) : Prop :=
  upperTake 3 (extensionPart s) ≠ upperTake 3 (extensionPart t)

/-- The base fields differ, or the encoder comes to extensions with different fields: to both,
or to one that is not blank. -/
def ToldApart (s t : List UInt8) : Prop :=
  field 8 (basePart s) ≠ field 8 (basePart t) ∨
  (ExtensionSeen s ∧ ExtensionSeen t ∧
    field 3 (extensionPart s) ≠ field 3 (extensionPart t)) ∨
  (ExtensionSeen s ∧ ¬ ExtensionSeen t ∧ ¬ BlankExtension s) ∨
  (¬ ExtensionSeen s ∧ ExtensionSeen t ∧ ¬ BlankExtension t)

section Parts

variable {s t : List UInt8} {n : ℕ}

theorem ne_dot (h : dot ∉ s) : ∀ c ∈ s, decide (c ≠ dot) = true := by
  intro c hc
  refine decide_eq_true ?_
  rintro rfl
  exact h hc

theorem split_at_dot (s : List UInt8) : s = basePart s ++ s.dropWhile (· ≠ dot) :=
  List.takeWhile_append_dropWhile.symm

theorem drop_basePart (s : List UInt8) :
    s.drop (basePart s).length = s.dropWhile (· ≠ dot) :=
  calc s.drop (basePart s).length
    _ = (basePart s ++ s.dropWhile (· ≠ dot)).drop (basePart s).length :=
        congrArg _ (split_at_dot s)
    _ = s.dropWhile (· ≠ dot) := List.drop_left

theorem dropWhile_dot (h : dot ∈ s) : s.dropWhile (· ≠ dot) = dot :: extensionPart s := by
  induction s with
  | nil => cases h
  | cons c s ih =>
    by_cases hc : c = dot
    · subst hc
      rfl
    · have hs : dot ∈ s := (List.mem_cons.mp h).resolve_left fun he => hc he.symm
      rw [extensionPart, List.dropWhile_cons_of_pos (by simpa using hc)]
      exact ih hs

theorem dropWhile_no_dot (h : dot ∉ s) : s.dropWhile (· ≠ dot) = [] :=
  List.dropWhile_eq_nil_iff.mpr (ne_dot h)

theorem basePart_no_dot (h : dot ∉ s) : basePart s = s :=
  List.takeWhile_eq_self_iff.mpr (ne_dot h)

theorem extensionPart_no_dot (h : dot ∉ s) : extensionPart s = [] := by
  rw [extensionPart, dropWhile_no_dot h, List.tail_nil]

theorem dot_not_mem_basePart (s : List UInt8) : dot ∉ basePart s := by
  intro h
  simpa using List.mem_takeWhile_imp h

theorem basePart_append (hs : dot ∉ s) : basePart (s ++ dot :: t) = s := by
  rw [basePart, List.takeWhile_append_of_pos (ne_dot hs), List.takeWhile_cons_of_neg (by simp),
    List.append_nil]

theorem extensionPart_append (hs : dot ∉ s) : extensionPart (s ++ dot :: t) = t := by
  rw [extensionPart, List.dropWhile_append_of_pos (ne_dot hs),
    List.dropWhile_cons_of_neg (by simp), List.tail_cons]

theorem mem_of_mem_extensionPart {c : UInt8} (h : c ∈ extensionPart s) : c ∈ s :=
  (List.dropWhile_sublist _).mem (List.mem_of_mem_tail h)

theorem mem_of_mem_basePart {c : UInt8} (h : c ∈ basePart s) : c ∈ s :=
  (List.takeWhile_sublist _).mem h

end Parts

section Encoder

variable {s t : List UInt8} {n : ℕ}

theorem copyName_eq (h : 0 ∉ s) : copyName n s =
    (upperTake n (basePart s), s.drop (min n (basePart s).length)) := by
  induction n generalizing s with
  | zero => simp [copyName, upperTake]
  | succ n ih =>
    cases s with
    | nil => rfl
    | cons c s =>
      rw [List.mem_cons, not_or] at h
      by_cases hc : c = dot
      · subst hc
        rfl
      · have hstop : ¬ (c = dot ∨ c = 0) := not_or.mpr ⟨hc, fun he => h.1 he.symm⟩
        have hbase : basePart (c :: s) = c :: basePart s :=
          List.takeWhile_cons_of_pos (decide_eq_true hc)
        rw [copyName, if_neg hstop, ih h.2, hbase, List.length_cons, Nat.succ_min_succ]
        rfl

theorem copyExtension_eq (h : 0 ∉ s) : copyExtension n s = upperTake n s := by
  induction n generalizing s with
  | zero => rfl
  | succ n ih =>
    cases s with
    | nil => rfl
    | cons c s =>
      rw [List.mem_cons, not_or] at h
      rw [copyExtension, if_neg fun he => h.1 he.symm, ih h.2]
      rfl

/-- The character at which the base is left is a dot only if the base was copied whole. -/
theorem left_at_dot (s : List UInt8) :
    (s.drop (min 8 (basePart s).length)).getD 0 0 = dot ↔ ExtensionSeen s ∧ dot ∈ s := by
  by_cases hlen : ExtensionSeen s
  · have hdrop : s.drop (min 8 (basePart s).length) = s.dropWhile (· ≠ dot) := by
      rw [Nat.min_eq_right hlen, drop_basePart]
    rw [hdrop]
    by_cases hdot : dot ∈ s
    · rw [dropWhile_dot hdot]
      exact iff_of_true rfl ⟨hlen, hdot⟩
    · rw [dropWhile_no_dot hdot]
      exact iff_of_false (by decide) fun h => hdot h.2
  · refine iff_of_false (fun h => ?_) fun h => hlen h.1
    have hlt : 8 < (basePart s).length := not_le.mp hlen
    -- the ninth character of the base
    have hmem : (s.drop 8).getD 0 0 ∈ basePart s := by
      have hs : (s.drop 8).getD 0 0 = (basePart s)[8] := by
        conv_lhs => rw [split_at_dot s]
        simp [List.getD_eq_getElem?_getD, List.getElem?_append_left hlt, hlt]
      rw [hs]
      exact List.getElem_mem hlt
    rw [Nat.min_eq_left hlt.le] at h
    rw [h] at hmem
    exact dot_not_mem_basePart s hmem

theorem formatFilename_fields (h : FileName s) :
    formatFilename s = field 8 (basePart s) ++ field 3 (seenExtension s) := by
  obtain ⟨hdot, hdotDot⟩ := not_formatted_as_link h.no_nul h.not_dot h.not_dotDot
  rw [formatFilename, if_neg hdot, if_neg hdotDot, copyName_eq h.no_nul]
  simp only [left_at_dot]
  unfold seenExtension
  by_cases hlen : ExtensionSeen s
  · by_cases hdot : dot ∈ s
    · have hdrop : (s.drop (min 8 (basePart s).length)).tail = extensionPart s := by
        rw [Nat.min_eq_right hlen, drop_basePart]
        rfl
      rw [if_pos ⟨hlen, hdot⟩, if_pos hlen, hdrop,
        copyExtension_eq fun h0 => h.no_nul (mem_of_mem_extensionPart h0)]
      rfl
    · rw [if_neg fun hs => hdot hs.2, if_pos hlen, extensionPart_no_dot hdot]
      rfl
  · rw [if_neg fun hs => hlen hs.1, if_neg hlen]
    rfl

end Encoder

section Fields

variable {s t part part' : List UInt8} {n : ℕ}

theorem upperTake_length (n : ℕ) (part : List UInt8) : (upperTake n part).length ≤ n := by
  rw [upperTake, List.length_map, List.length_take]
  exact min_le_left _ _

theorem field_length (n : ℕ) (part : List UInt8) : (field n part).length = n :=
  pad_length (upperTake_length n part)

theorem field_blank_iff : field n part = field n [] ↔ ∀ c ∈ part.take n, c = space := by
  have hblank : field n [] = List.replicate n space := by
    simp [field, upperTake, pad]
  have hchar : ∀ c, toUpper c = space ↔ c = space := fun c =>
    toUpper_eq_iff (by decide) (by decide)
  rw [hblank, List.eq_replicate_iff]
  constructor
  · rintro ⟨-, hall⟩ c hc
    exact (hchar c).mp (hall _ (List.mem_append_left _ (List.mem_map_of_mem hc)))
  · refine fun hall => ⟨field_length n part, fun c hc => ?_⟩
    rcases List.mem_append.mp hc with hc | hc
    · obtain ⟨x, hx, rfl⟩ := List.mem_map.mp hc
      exact (hchar x).mpr (hall x hx)
    · exact List.eq_of_mem_replicate hc

theorem blankExtension_iff : field 3 (extensionPart s) = field 3 [] ↔ BlankExtension s :=
  field_blank_iff

theorem fields_eq_iff {a b a' b' : List UInt8} :
    field 8 a ++ field 3 b = field 8 a' ++ field 3 b' ↔
      field 8 a = field 8 a' ∧ field 3 b = field 3 b' :=
  ⟨fun h => List.append_inj h ((field_length 8 a).trans (field_length 8 a').symm),
    fun ⟨ha, hb⟩ => by rw [ha, hb]⟩

theorem seenExtension_seen (h : ExtensionSeen s) : seenExtension s = extensionPart s := if_pos h

theorem seenExtension_hidden (h : ¬ ExtensionSeen s) : seenExtension s = [] := if_neg h

theorem toldApart_iff (hs : FileName s) (ht : FileName t) :
    formatFilename s ≠ formatFilename t ↔ ToldApart s t := by
  rw [formatFilename_fields hs, formatFilename_fields ht, Ne, fields_eq_iff, not_and_or, ToldApart]
  refine or_congr_right ?_
  by_cases h1 : ExtensionSeen s <;> by_cases h2 : ExtensionSeen t
  · simp [seenExtension_seen, h1, h2]
  · simp [seenExtension_seen, seenExtension_hidden, h1, h2, blankExtension_iff]
  · simp [seenExtension_seen, seenExtension_hidden, h1, h2, blankExtension_iff, eq_comm]
  · simp [seenExtension_hidden, h1, h2]

/-- The encoder gives the 8.3 encoding when it comes to the extension or has nothing to lose
there. Two names with different extensions get different encodings when they are told apart. -/
theorem formatFilename_encodes_iff (s : List UInt8) (hs : FileName s) :
    (formatFilename s = encoding83 s ↔ ExtensionSeen s ∨ BlankExtension s) ∧
      ∀ t, FileName t → ExtensionsDiffer s t →
        (formatFilename s ≠ formatFilename t ↔ ToldApart s t) := by
  constructor
  · rw [formatFilename_fields hs, encoding83, fields_eq_iff, and_iff_right rfl]
    by_cases hseen : ExtensionSeen s
    · exact iff_of_true (by rw [seenExtension_seen hseen]) (.inl hseen)
    · rw [seenExtension_hidden hseen, eq_comm, blankExtension_iff, or_iff_right hseen]
  · exact fun t ht _ => toldApart_iff hs ht

/-- `ABCDEFGHI.TXT` -/
def longBase : List UInt8 :=
  [0x41, 0x42, 0x43, 0x44, 0x45, 0x46, 0x47, 0x48, 0x49, dot, 0x54, 0x58, 0x54]

/-- `ABCDEFGHI.DOC` -/
def longBaseDoc : List UInt8 :=
  [0x41, 0x42, 0x43, 0x44, 0x45, 0x46, 0x47, 0x48, 0x49, dot, 0x44, 0x4F, 0x43]

theorem formatFilename_encodes_iff_longBase :
    (formatFilename longBase = encoding83 longBase ↔
        ExtensionSeen longBase ∨ BlankExtension longBase) ∧
      ∀ t, FileName t → ExtensionsDiffer longBase t →
        (formatFilename longBase ≠ formatFilename t ↔ ToldApart longBase t) :=
  formatFilename_encodes_iff longBase ⟨by decide, by decide, by decide⟩

/-- The extension of a name with nine base characters is lost. -/
theorem longBase_collides : ¬ ∀ s, FileName s → formatFilename s = encoding83 s ∧
    ∀ t, FileName t → ExtensionsDiffer s t → formatFilename s ≠ formatFilename t := by
  intro h
  have hs : FileName longBase := ⟨by decide, by decide, by decide⟩
  have ht : FileName longBaseDoc := ⟨by decide, by decide, by decide⟩
  exact (h longBase hs).2 longBaseDoc ht (by unfold ExtensionsDiffer; decide) (by decide)

end Fields


section Decoder

variable {s part : List UInt8} {n : ℕ}

/-- What is printed for the encoding of a file name: the base, and a dot before an extension. -/
def shownName (s : List UInt8) : List UInt8 :=
  upperTake 8 (basePart s) ++
    if seenExtension s = [] then [] else dot :: upperTake 3 (seenExtension s)

theorem upperTake_upperTake (n : ℕ) (part : List UInt8) :
    upperTake n (upperTake n part) = upperTake n part := by
  have hall : (upperTake n part).take n = upperTake n part :=
    List.take_of_length_le (upperTake_length n part)
  rw [upperTake, hall, upperTake, List.map_map]
  exact List.map_congr_left fun c _ => toUpper_toUpper c

theorem upperTake_field (n : ℕ) (part : List UInt8) :
    field n (upperTake n part) = field n part := by
  rw [field, upperTake_upperTake, field]

theorem not_mem_upperTake {k : UInt8} (hk : k ∉ part) (h0 : ¬ (0x41 ≤ k ∧ k ≤ 0x5A))
    (h1 : ¬ (0x61 ≤ k ∧ k ≤ 0x7A)) : k ∉ upperTake n part := by
  intro hm
  obtain ⟨c, hc, he⟩ := List.mem_map.mp hm
  rw [toUpper_eq_iff h0 h1] at he
  exact hk (he ▸ List.mem_of_mem_take hc)

theorem field_filter (h : space ∉ part) : (field n part).filter (· ≠ space) = upperTake n part := by
  have hno : space ∉ upperTake n part := not_mem_upperTake h (by decide) (by decide)
  rw [field, pad, List.filter_append, List.filter_replicate, List.filter_eq_self.mpr]
  · simp
  · intro c hc
    refine decide_eq_true ?_
    rintro rfl
    exact hno hc

theorem mem_seenExtension {c : UInt8} (h : c ∈ seenExtension s) : c ∈ s := by
  unfold seenExtension at h
  split_ifs at h
  · exact mem_of_mem_extensionPart h
  · cases h

theorem upperTake_eq_nil (hn : 0 < n) : upperTake n part = [] ↔ part = [] := by
  simp [upperTake, hn.ne']

theorem shortName_format (hs : FileName s) (hsp : space ∉ s) :
    shortName (formatFilename s) = shownName s := by
  have hext : space ∉ seenExtension s := fun h => hsp (mem_seenExtension h)
  have hbase : space ∉ basePart s := fun h => hsp (mem_of_mem_basePart h)
  have hdrop : (formatFilename s).drop 8 = field 3 (seenExtension s) := by
    rw [formatFilename_fields hs, List.drop_left' (field_length 8 _)]
  have hname : baseName (formatFilename s) = upperTake 8 (basePart s) := by
    rw [baseName, formatFilename_fields hs, List.take_left' (field_length 8 _), field_filter hbase]
  have hfirst : (formatFilename s).getD 8 0 = (field 3 (seenExtension s)).getD 0 0 := by
    rw [← hdrop, List.getD_eq_getElem?_getD, List.getD_eq_getElem?_getD, List.getElem?_drop]
  have htake : (field 3 (seenExtension s)).take 3 = field 3 (seenExtension s) :=
    List.take_of_length_le (field_length 3 _).le
  rw [shortName, hname, hfirst, hdrop, htake, field_filter hext, shownName]
  -- the first byte of the extension field says if there is an extension
  by_cases hnil : seenExtension s = []
  · rw [if_pos hnil, hnil, if_neg (by decide), List.append_nil]
  · rw [if_neg hnil, if_pos]
    obtain ⟨c, rest, he⟩ := List.exists_cons_of_ne_nil hnil
    rw [he] at hext ⊢
    change toUpper c ≠ space
    rw [Ne, toUpper_eq_iff (by decide) (by decide)]
    rintro rfl
    exact hext List.mem_cons_self

theorem shownName_length (s : List UInt8) : (shownName s).length ≤ 12 := by
  have h8 := upperTake_length 8 (basePart s)
  have h3 := upperTake_length 3 (seenExtension s)
  rw [shownName, List.length_append]
  split_ifs
  · exact h8.trans (by norm_num)
  · rw [List.length_cons]
    omega

theorem shownName_parts (s : List UInt8) :
    basePart (shownName s) = upperTake 8 (basePart s) ∧
      extensionPart (shownName s) = upperTake 3 (seenExtension s) := by
  have hno : dot ∉ upperTake 8 (basePart s) :=
    not_mem_upperTake (dot_not_mem_basePart s) (by decide) (by decide)
  unfold shownName
  split_ifs with hnil
  · rw [List.append_nil, hnil]
    exact ⟨basePart_no_dot hno, extensionPart_no_dot hno⟩
  · exact ⟨basePart_append hno, extensionPart_append hno⟩

theorem split_seen (h : seenExtension s ≠ []) : s = basePart s ++ dot :: seenExtension s := by
  unfold seenExtension at h ⊢
  split_ifs at h ⊢
  · have hdot : dot ∈ s := by
      by_contra hno
      exact h (extensionPart_no_dot hno)
    rw [← dropWhile_dot hdot]
    exact split_at_dot s
  · exact absurd rfl h

theorem FileName.shown (hs : FileName s) : FileName (shownName s) := by
  obtain ⟨hbase, hext⟩ := shownName_parts s
  have hnil : seenExtension s = [] → shownName s = basePart (shownName s) := by
    intro h
    rw [hbase, shownName, if_pos h, List.append_nil]
  constructor
  · intro h0
    have hb : 0 ∉ upperTake 8 (basePart s) :=
      not_mem_upperTake (fun h => hs.no_nul (mem_of_mem_basePart h)) (by decide) (by decide)
    have he : 0 ∉ upperTake 3 (seenExtension s) :=
      not_mem_upperTake (fun h => hs.no_nul (mem_seenExtension h)) (by decide) (by decide)
    rcases List.mem_append.mp h0 with h0 | h0
    · exact hb h0
    · split_ifs at h0
      · cases h0
      · exact he ((List.mem_cons.mp h0).resolve_left (by decide))
  · intro h
    rw [h] at hext hnil
    have hseen : seenExtension s = [] := (upperTake_eq_nil (by norm_num : 0 < 3)).mp hext.symm
    exact absurd (hnil hseen) (by decide)
  · intro h
    rw [h] at hbase hext
    have hempty : basePart s = [] := (upperTake_eq_nil (by norm_num : 0 < 8)).mp hbase.symm
    -- the extension is a dot, so the name was the link to the parent
    have hdot : seenExtension s = [dot] := by
      generalize seenExtension s = e at hext
      have hlen := congrArg List.length hext
      rcases e with _ | ⟨c, _ | ⟨c', e⟩⟩
      · exact absurd hext (by decide)
      · have hc : toUpper c = dot := (List.cons.inj hext).1.symm
        rw [toUpper_eq_iff (by decide) (by decide)] at hc
        rw [hc]
      · simp [upperTake, extensionPart] at hlen
    have hsplit := split_seen (s := s) (by rw [hdot]; decide)
    rw [hempty, hdot] at hsplit
    exact hs.not_dotDot hsplit

theorem shownName_upper (hlen : ExtensionSeen s)
    (hext : dot ∉ s ∨ 1 ≤ (extensionPart s).length ∧ (extensionPart s).length ≤ 3) :
    shownName s = s.map toUpper := by
  have hbase : upperTake 8 (basePart s) = (basePart s).map toUpper := by
    rw [upperTake, List.take_of_length_le hlen]
  have hseen := seenExtension_seen hlen
  rw [shownName, hbase]
  rcases hext with hdot | ⟨hpos, hle⟩
  · rw [hseen, extensionPart_no_dot hdot, if_pos rfl, List.append_nil, basePart_no_dot hdot]
  · have hne : seenExtension s ≠ [] := by
      rw [hseen]
      exact List.ne_nil_of_length_pos hpos
    have hall : upperTake 3 (seenExtension s) = (seenExtension s).map toUpper := by
      rw [upperTake, List.take_of_length_le (by rwa [hseen])]
    rw [if_neg hne, hall]
    conv_rhs => rw [split_seen hne, List.map_append, List.map_cons]
    rfl

theorem format_shownName (hs : FileName s) :
    formatFilename (shownName s) = formatFilename s := by
  obtain ⟨hbase, hext⟩ := shownName_parts s
  have hseen : ExtensionSeen (shownName s) := by
    rw [ExtensionSeen, hbase]
    exact upperTake_length 8 _
  rw [formatFilename_fields hs.shown, seenExtension_seen hseen, hbase, hext, upperTake_field,
    upperTake_field, formatFilename_fields hs]

end Decoder

/-- The entries that a listing prints of some slots, and whether it goes on behind them. -/
def shownOf (d : Bytes) : List (ℕ × ℕ) → List Fat32DirEntry × Bool
  | [] => ([], true)
  | (sector, i) :: slots =>
    let buffer := diskRead d sector
    let e := readEntry buffer (32 * i)
    if buffer (32 * i) = 0 then ([], false)
    else if buffer (32 * i) = deletedMark then shownOf d slots
    else if e.attr = attrLongName then shownOf d slots
    else (e :: (shownOf d slots).1, (shownOf d slots).2)

def shownIn (fs : Fat32) (d : Bytes) : (rounds cluster : ℕ) → List Fat32DirEntry
  | 0, _ => []
  | rounds + 1, cluster =>
    if offChain cluster then []
    else
      let shown := shownOf d (slotsOf fs (clusterToSector fs cluster))
      shown.1 ++
        if shown.2 then shownIn fs d rounds (fat32NextCluster fs d cluster) else []

def listing (entries : List Fat32DirEntry) : List UInt8 :=
  entries.flatMap fun e => printName e.name

/-- The text `t` is what is printed for the encoding of `s`, it fills no more than the buffer
of `print_name`, and it is encoded like `s`. -/
structure TypesBack (s t : List UInt8) : Prop where
  printed : printName (formatFilename s) = t ++ [newline]
  buffered : t = shortName (formatFilename s)
  length_le : t.length ≤ 12
  encoded : formatFilename t = formatFilename s
  upper : 1 ≤ (basePart s).length → ExtensionSeen s →
    (dot ∉ s ∨ 1 ≤ (extensionPart s).length ∧ (extensionPart s).length ≤ 3) → t = s.map toUpper

def EntryMade (d : Bytes) (name : List UInt8) : Prop :=
  ∃ d₁ slot attr first size, d = storeEntry d₁ slot name attr first size ∧
    (readEntry (diskRead d slot.1) (32 * slot.2)).name = name

section Listing

variable {fs : Fat32} {d : Bytes} {c n : ℕ} {name out printed : List UInt8}
variable {slots : List (ℕ × ℕ)} {e : Fat32DirEntry}

theorem listSlots_shown (slots : List (ℕ × ℕ)) (printed : List UInt8) :
    listSlots d slots printed =
      if (shownOf d slots).2 then .again (printed ++ listing (shownOf d slots).1)
      else .leave (printed ++ listing (shownOf d slots).1) := by
  induction slots generalizing printed with
  | nil => simp [listSlots, shownOf, listing]
  | cons slot slots ih =>
    obtain ⟨sector, i⟩ := slot
    by_cases hend : diskRead d sector (32 * i) = 0
    · simp [listSlots, shownOf, hend, listing]
    by_cases hdel : diskRead d sector (32 * i) = deletedMark
    · have hmark : deletedMark ≠ 0 := by decide
      simp [listSlots, shownOf, hdel, hmark, ih]
    by_cases hlong : (readEntry (diskRead d sector) (32 * i)).attr = attrLongName
    · simp [listSlots, shownOf, hend, hdel, hlong, ih]
    · simp [listSlots, shownOf, hend, hdel, hlong, ih, listing]

theorem ls_shown (h : run (lsBody fs d) n (c, printed) = some out) :
    out = printed ++ listing (shownIn fs d n c) := by
  induction n generalizing c printed with
  | zero => cases h
  | succ n ih =>
    by_cases hoff : offChain c
    · rw [run_leave (r := printed) (by simp only [lsBody, hoff, ↓reduceIte])] at h
      cases h
      simp [shownIn, hoff, listing]
    · simp only [shownIn, hoff, ↓reduceIte]
      have hslots := listSlots_shown (d := d) (slotsOf fs (clusterToSector fs c)) printed
      generalize shownOf d (slotsOf fs (clusterToSector fs c)) = shown at hslots ⊢
      cases hmore : shown.2 with
      | true =>
        rw [hmore, if_pos rfl] at hslots
        rw [run_again (by simp only [lsBody, hoff, ↓reduceIte, hslots]; rfl)] at h
        rw [ih h]
        simp [listing]
      | false =>
        rw [hmore, if_neg (by simp)] at hslots
        rw [run_leave (by simp only [lsBody, hoff, ↓reduceIte, hslots]; rfl)] at h
        cases h
        simp

theorem scan_shown (hlen : name.length = 11) (slots : List (ℕ × ℕ)) :
    (∃ f, slots.findSome? (fun p => findVisit d name p.1 p.2) = some (some f) ∧ f.name = name) ∨
      (∀ e ∈ (shownOf d slots).1, e.name ≠ name) ∧ ((shownOf d slots).2 = true →
        slots.findSome? (fun p => findVisit d name p.1 p.2) = none) := by
  induction slots with
  | nil => exact .inr ⟨by simp [shownOf], fun _ => rfl⟩
  | cons slot slots ih =>
    obtain ⟨sector, i⟩ := slot
    have hname : memcmp (readEntry (diskRead d sector) (32 * i)).name name = 0 ↔
        (readEntry (diskRead d sector) (32 * i)).name = name :=
      memcmp_eq_zero_iff ((readEntry_name_length _ _).trans hlen.symm)
    have hmark : deletedMark ≠ 0 := by decide
    rw [List.findSome?_cons]
    by_cases hend : diskRead d sector (32 * i) = 0
    · exact .inr (by simp [shownOf, hend])
    by_cases hdel : diskRead d sector (32 * i) = deletedMark
    · simp only [findVisit, shownOf, hdel, hmark, ↓reduceIte]
      exact ih
    by_cases hlong : (readEntry (diskRead d sector) (32 * i)).attr = attrLongName
    · simp only [findVisit, shownOf, hend, hdel, hlong, ↓reduceIte]
      exact ih
    simp only [findVisit, shownOf, hend, hdel, hlong, hname, ↓reduceIte]
    by_cases hsame : (readEntry (diskRead d sector) (32 * i)).name = name
    · exact .inl ⟨_, by simp only [hsame, ↓reduceIte], hsame⟩
    · simp only [hsame, ↓reduceIte, List.forall_mem_cons, ne_eq, not_false_eq_true, true_and]
      exact ih

theorem findWalk_shown (hlen : name.length = 11) (he : e ∈ shownIn fs d n c)
    (hname : e.name = name) : ∃ f, run (walkBody (fat32NextCluster fs d) offChain fun c =>
      scanCluster fs (clusterToSector fs c) (findVisit d name)) n c = some (some (some f)) ∧
        f.name = name := by
  induction n generalizing c with
  | zero => cases he
  | succ n ih =>
    by_cases hoff : offChain c
    · simp [shownIn, hoff] at he
    simp only [shownIn, hoff, ↓reduceIte, List.mem_append] at he
    have hscan := scan_shown (d := d) hlen (slotsOf fs (clusterToSector fs c))
    rw [scanCluster_slotsOf] at hscan
    rcases hscan with ⟨f, hf, hfname⟩ | ⟨hother, hmore⟩
    · exact ⟨f, run_leave (by simp only [walkBody, hoff, hf, ↓reduceIte]) n, hfname⟩
    · have hrest := he.resolve_left fun hmem => hother e hmem hname
      split_ifs at hrest with hgo
      · obtain ⟨f, hf, hfname⟩ := ih hrest
        refine ⟨f, ?_, hfname⟩
        rw [run_again (t := fat32NextCluster fs d c)
          (by simp only [walkBody, hoff, hmore hgo, ↓reduceIte])]
        exact hf
      · cases hrest

/-- The lookup of a name that is shown ends with an entry of that name, though the listing
itself may go on for ever. -/
theorem findFile_shown {filename : List UInt8} (he : e ∈ shownIn fs d n c)
    (hname : e.name = formatFilename filename) : ∃ f,
      fat32FindFile fs d c filename = some (some f) ∧ f.name = formatFilename filename := by
  obtain ⟨f, hf, hfname⟩ := findWalk_shown (formatFilename_length filename) he hname
  refine ⟨f, ?_, hfname⟩
  rw [fat32FindFile, walkDirectory]
  cases hr : run (walkBody (fat32NextCluster fs d) offChain fun c =>
      scanCluster fs (clusterToSector fs c) (findVisit d (formatFilename filename)))
      wordCount c with
  | none =>
    rw [walk_none_iff_goesRound le_rfl] at hr
    rw [walk_circles hr n] at hf
    cases hf
  | some r =>
    rw [run_unique hr hf]
    rfl

end Listing

section TypingBack

variable {fs : Fat32} {d d' : Bytes} {cwd : ℕ} {s name : List UInt8}

theorem typesBack_of_fileName (hs : FileName s) (hsp : space ∉ s)
    (hmark : s.getD 0 0 ≠ deletedMark) : TypesBack s (shownName s) := by
  have hshort := shortName_format hs hsp
  have hall : (shownName s).takeWhile (· ≠ 0) = shownName s := by
    refine List.takeWhile_eq_self_iff.mpr fun c hc => decide_eq_true ?_
    rintro rfl
    exact hs.shown.no_nul hc
  constructor
  · rw [printName, if_neg (formatFilename_ne_deleted hmark)]
    change (shortName (formatFilename s)).takeWhile (· ≠ 0) ++ [newline] = _
    rw [hshort, hall]
  · exact hshort.symm
  · exact shownName_length s
  · exact format_shownName hs
  · exact fun _ => shownName_upper

theorem typesBack_dot : TypesBack [dot] [dot] :=
  ⟨by decide, by decide, by decide, rfl, fun h => absurd h (by decide)⟩

theorem typesBack_dotDot : TypesBack [dot, dot] [dot, dot] :=
  ⟨by decide, by decide, by decide, rfl, fun h => absurd h (by decide)⟩

theorem freeSlot_index {next : ℕ → ℕ} {c n : ℕ} {slot : ℕ × ℕ}
    (h : run (walkBody next offChain fun c =>
      scanCluster fs (clusterToSector fs c) (freeSlotVisit d)) n c = some (some slot)) :
    slot.2 < 16 := by
  obtain ⟨c', -, -, hvisit⟩ := walk_some (S := fun _ => True) _ (fun _ _ _ => trivial) trivial h
  obtain ⟨sector, -, hsector⟩ := List.exists_of_findSome?_eq_some hvisit
  obtain ⟨i, hi, hslot⟩ := List.exists_of_findSome?_eq_some hsector
  simp only [freeSlotVisit, Option.ite_none_right_eq_some, Option.some.injEq] at hslot
  obtain ⟨-, rfl⟩ := hslot
  exact List.mem_range.mp hi

theorem entryMade_of_store {slot : ℕ × ℕ} {attr : UInt8} {first size : ℕ}
    (hslot : slot.2 < 16) :
    EntryMade (storeEntry d slot (formatFilename s) attr first size) (formatFilename s) := by
  refine ⟨d, slot, attr, first, size, rfl, ?_⟩
  obtain ⟨sector, i⟩ := slot
  have hdvd : 32 ∣ 512 * sector + 32 * i := by omega
  have haddr : ((512 * sector + 32 * i) / 512, (512 * sector + 32 * i) % 512 / 32) =
      (sector, i) := Prod.ext (by simp at hslot ⊢; omega) (by simp at hslot ⊢; omega)
  rw [← haddr, storeEntry_eq hdvd, haddr, readEntry_diskRead]
  exact readEntry_fillEntry_name (formatFilename_length s)

theorem writeFile_made {data : Bytes} {size : ℕ}
    (h : fat32WriteFile fs d cwd s data size = some (d', .stored)) :
    EntryMade d' (formatFilename s) := by
  rw [fat32WriteFile] at h
  generalize allocateClusters fs data size _ 0 d 0 0 = allocated at h
  obtain ⟨d₁, _ | first⟩ := allocated
  · cases h
  · rw [recordFile, walkDirectory, Option.map_eq_some_iff] at h
    obtain ⟨_ | slot, hwalk, he⟩ := h
    · cases he
    · obtain rfl := (Prod.mk.inj he).1
      exact entryMade_of_store (freeSlot_index hwalk)

theorem createDirectory_made
    (h : fat32CreateDirectory fs d cwd s = some (d', some .directoryCreated)) :
    EntryMade d' (formatFilename s) := by
  rw [fat32CreateDirectory, Option.bind_eq_bind, Option.bind_eq_some_iff] at h
  obtain ⟨found, -, h⟩ := h
  by_cases hfound : found.isSome
  · simp only [hfound, ↓reduceIte] at h
    cases h
  by_cases hfull : fat32FindFreeCluster fs d = 0x0FFFFFFF
  · simp only [hfound, hfull, ↓reduceIte] at h
    cases h
  simp only [hfound, hfull, ↓reduceIte, Bool.false_eq_true, Option.bind_eq_bind,
    Option.bind_eq_some_iff] at h
  obtain ⟨_ | slot, hwalk, he⟩ := h
  · cases he
  · obtain rfl := (Prod.mk.inj (Option.some.inj he)).1
    exact entryMade_of_store (freeSlot_index hwalk)

/-- What is printed for an encoded name can be typed in its place, and a lookup of it finds an
entry of that name wherever a listing prints one. -/
theorem shown_names_typed_back (s : List UInt8) (hnul : 0 ∉ s) (hspace : space ∉ s)
    (hmark : s.getD 0 0 ≠ deletedMark) : ∃ t, TypesBack s t ∧ ∀ fs d cwd,
      (∀ data size d', fat32WriteFile fs d cwd s data size = some (d', .stored) →
        EntryMade d' (formatFilename s)) ∧
      (∀ d', fat32CreateDirectory fs d cwd s = some (d', some .directoryCreated) →
        EntryMade d' (formatFilename s)) ∧
      (∀ out, fat32Ls fs d cwd = some out → out = listing (shownIn fs d wordCount cwd)) ∧
      ∀ n, ∀ e ∈ shownIn fs d n cwd, e.name = formatFilename s → ∃ f,
        fat32FindFile fs d cwd t = some (some f) ∧ f.name = formatFilename s := by
  have hback : ∃ t, TypesBack s t := by
    by_cases hdot : s = [dot]
    · exact ⟨[dot], hdot ▸ typesBack_dot⟩
    by_cases hdotDot : s = [dot, dot]
    · exact ⟨[dot, dot], hdotDot ▸ typesBack_dotDot⟩
    · exact ⟨_, typesBack_of_fileName ⟨hnul, hdot, hdotDot⟩ hspace hmark⟩
  obtain ⟨t, ht⟩ := hback
  refine ⟨t, ht, fun fs d cwd => ⟨fun _ _ _ => writeFile_made, fun _ => createDirectory_made,
    fun out hout => ?_, fun n e he hname => ?_⟩⟩
  · rw [ls_shown hout, List.nil_append]
  · rw [← ht.encoded] at hname ⊢
    exact findFile_shown he hname

theorem shown_names_typed_back_letter : ∃ t, TypesBack [0x61] t ∧ ∀ fs d cwd,
    (∀ data size d', fat32WriteFile fs d cwd [0x61] data size = some (d', .stored) →
      EntryMade d' (formatFilename [0x61])) ∧
    (∀ d', fat32CreateDirectory fs d cwd [0x61] = some (d', some .directoryCreated) →
      EntryMade d' (formatFilename [0x61])) ∧
    (∀ out, fat32Ls fs d cwd = some out → out = listing (shownIn fs d wordCount cwd)) ∧
    ∀ n, ∀ e ∈ shownIn fs d n cwd, e.name = formatFilename [0x61] → ∃ f,
      fat32FindFile fs d cwd t = some (some f) ∧ f.name = formatFilename [0x61] :=
  shown_names_typed_back [0x61] (by decide) (by decide) (by decide)

end TypingBack

end Fat32ShortNames
