import SojebOS.DevicePrograms
import SojebOS.Fat32Disk

/-!
# The ATA driver and the drive

The driver reads and writes one sector at a time through the ports of the first channel. The
drive takes a command when it is not busy, says with a bit of its status that it is busy and
with another that it waits for the words of a sector to be moved, and may be busy for any
time after a command and after the last word of a sector.
-/
namespace AtaDriver

open ByteMemory MachineWord DevicePrograms Fat32Disk

inductive PortRequest where
  | inb (port : ℕ)
  | outb (port : ℕ) (val : ℕ)
  | inw (port : ℕ)
  | outw (port : ℕ) (val : ℕ)
  deriving DecidableEq, Repr

abbrev PortProgram (α : Type) := Program PortRequest ℕ α

section Driver

abbrev ataData : ℕ := 0x1F0
abbrev ataSectorCnt : ℕ := 0x1F2
abbrev ataLbaLow : ℕ := 0x1F3
abbrev ataLbaMid : ℕ := 0x1F4
abbrev ataLbaHigh : ℕ := 0x1F5
abbrev ataDrive : ℕ := 0x1F6
abbrev ataCmd : ℕ := 0x1F7
abbrev ataStatus : ℕ := 0x1F7

def inb (port : ℕ) : PortProgram ℕ := Program.ask (.inb port)

/-- The value is cut to a byte. -/
def outb (port val : ℕ) : PortProgram Unit := Program.tell (.outb port (val % 2 ^ 8))

def ataWait : PortProgram Unit := Program.await (.inb ataStatus) fun v => v &&& 0x80 = 0

def ataCommand (lba command : ℕ) : PortProgram Unit := do
  ataWait
  outb ataDrive (0xE0 ||| ((lba >>> 24) &&& 0x0F))
  outb ataSectorCnt 1
  outb ataLbaLow lba
  outb ataLbaMid (lba >>> 8)
  outb ataLbaHigh (lba >>> 16)
  outb ataCmd command

def storeWords (m : Bytes) (a : ℕ) : List ℕ → Bytes
  | [] => m
  | w :: words => storeWords (store16 m a w) (a + 2) words

def ataReadSector (lba : ℕ) (buffer : Bytes) : PortProgram Bytes := do
  ataCommand lba 0x20
  ataWait
  let words ← Program.askTimes (.inw ataData) 256
  return storeWords buffer 0 words

def ataWriteSector (lba : ℕ) (buffer : Bytes) : PortProgram Unit := do
  ataCommand lba 0x30
  Program.await (.inb ataStatus) fun v => v &&& 0x08 ≠ 0
  Program.tellAll ((List.range 256).map fun i => .outw ataData (load16 buffer (2 * i)))
  outb ataCmd 0xE7
  ataWait

end Driver

section Drive

/-- What the drive expects at the data port: nothing, to be read, or to be written from an
address on. -/
inductive Transfer where
  | idle
  | toHost (words : List ℕ)
  | fromHost (address left : ℕ)
  deriving DecidableEq

structure Drive where
  sectors : Bytes
  select : ℕ
  count : ℕ
  low : ℕ
  mid : ℕ
  high : ℕ
  /-- A bound on the reads of the status that still find the drive busy. -/
  busy : ℕ
  transfer : Transfer

def Drive.lba (s : Drive) : ℕ := s.select % 16 * 2 ^ 24 + s.high * 2 ^ 16 + s.mid * 2 ^ 8 + s.low

/-- The registers hold an address and a count inside the drive, and address its first unit. -/
def Drive.Accepts (s : Drive) (capacity : ℕ) : Prop :=
  s.select &&& 0x40 ≠ 0 ∧ s.select &&& 0x10 = 0 ∧ 0 < s.count ∧ s.lba + s.count ≤ capacity

def Drive.latch (s : Drive) (port val : ℕ) : Drive :=
  if port = ataSectorCnt then { s with count := val }
  else if port = ataLbaLow then { s with low := val }
  else if port = ataLbaMid then { s with mid := val }
  else if port = ataLbaHigh then { s with high := val }
  else if port = ataDrive then { s with select := val }
  else s

def Drive.prepared (s : Drive) (command : ℕ) : Transfer :=
  if command = 0x20 then
    .toHost ((List.range (256 * s.count)).map fun i => load16 s.sectors (512 * s.lba + 2 * i))
  else if command = 0x30 then .fromHost (512 * s.lba) (256 * s.count)
  else .idle

/-- What is expected when `words` are left to be read. -/
def leftToRead (words : List ℕ) : Transfer := if words = [] then .idle else .toHost words

/-- What is expected when `left` words are left to be written. -/
def leftToWrite (address left : ℕ) : Transfer :=
  if left = 0 then .idle else .fromHost address left

/-- While the drive is busy the bit that asks for words is clear, and it takes neither words nor
registers. A command, and the last word of what is written, makes it busy for any time. -/
inductive Responds (capacity : ℕ) : Drive → PortRequest → ℕ → Drive → Prop where
  | busyStatus {s v b} : b < s.busy → v &&& 0x80 ≠ 0 → v &&& 0x08 = 0 →
      Responds capacity s (.inb ataStatus) v { s with busy := b }
  | status {s v} : s.busy = 0 → v &&& 0x80 = 0 → (v &&& 0x08 ≠ 0 ↔ s.transfer ≠ .idle) →
      Responds capacity s (.inb ataStatus) v s
  | register {s port v} : port ≠ ataStatus → Responds capacity s (.inb port) v s
  | command {s c b} : s.busy = 0 → s.Accepts capacity →
      Responds capacity s (.outb ataCmd c) 0 { s with transfer := s.prepared c, busy := b }
  | refused {s c b} : s.busy = 0 → ¬ s.Accepts capacity →
      Responds capacity s (.outb ataCmd c) 0 { s with transfer := .idle, busy := b }
  | early {s c b} : 0 < s.busy → Responds capacity s (.outb ataCmd c) 0 { s with busy := b }
  | latched {s port v} : port ≠ ataCmd → s.busy = 0 →
      Responds capacity s (.outb port v) 0 (s.latch port v)
  | lost {s port v} : port ≠ ataCmd → 0 < s.busy → Responds capacity s (.outb port v) 0 s
  | given {s w words} : s.busy = 0 → s.transfer = .toHost (w :: words) →
      Responds capacity s (.inw ataData) w { s with transfer := leftToRead words }
  | nothingGiven {s port v} : port ≠ ataData ∨ s.busy ≠ 0 ∨
        (∀ w words, s.transfer ≠ .toHost (w :: words)) →
      Responds capacity s (.inw port) v s
  | taken {s w address left b} : s.busy = 0 → s.transfer = .fromHost address (left + 1) →
      (0 < left → b = 0) →
      Responds capacity s (.outw ataData w) 0 { s with
        sectors := store16 s.sectors address w
        transfer := leftToWrite (address + 2) left
        busy := b }
  | nothingTaken {s port w} : port ≠ ataData ∨ s.busy ≠ 0 ∨
        (∀ address left, s.transfer ≠ .fromHost address (left + 1)) →
      Responds capacity s (.outw port w) 0 s

end Drive

section Responses

variable {capacity : ℕ} {s t : Drive} {port val v : ℕ}

theorem inb_responds (capacity : ℕ) (s : Drive) (port : ℕ) :
    ∃ v t, Responds capacity s (.inb port) v t := by
  by_cases hport : port = ataStatus
  · subst hport
    by_cases hbusy : s.busy = 0
    · by_cases hidle : s.transfer = .idle
      · exact ⟨0, s, .status hbusy (by decide) (by simp [hidle])⟩
      · exact ⟨0x08, s, .status hbusy (by decide) (by simp [hidle])⟩
    · exact ⟨0x80, _, .busyStatus (Nat.pos_of_ne_zero hbusy) (by decide) (by decide)⟩
  · exact ⟨0, s, .register hport⟩

theorem outb_responds (capacity : ℕ) (s : Drive) (port val : ℕ) :
    ∃ v t, Responds capacity s (.outb port val) v t := by
  by_cases hbusy : s.busy = 0
  · by_cases hport : port = ataCmd
    · subst hport
      by_cases hacc : s.Accepts capacity
      · exact ⟨0, { s with transfer := s.prepared val, busy := 0 }, .command hbusy hacc⟩
      · exact ⟨0, { s with transfer := .idle, busy := 0 }, .refused hbusy hacc⟩
    · exact ⟨0, _, .latched hport hbusy⟩
  · have hbusy := Nat.pos_of_ne_zero hbusy
    by_cases hport : port = ataCmd
    · subst hport
      exact ⟨0, { s with busy := 0 }, .early hbusy⟩
    · exact ⟨0, s, .lost hport hbusy⟩

theorem inw_responds (capacity : ℕ) (s : Drive) (port : ℕ) :
    ∃ v t, Responds capacity s (.inw port) v t := by
  by_cases h : port = ataData ∧ s.busy = 0 ∧ ∃ w words, s.transfer = .toHost (w :: words)
  · obtain ⟨rfl, hbusy, w, words, htransfer⟩ := h
    exact ⟨w, _, .given hbusy htransfer⟩
  · refine ⟨0, s, .nothingGiven ?_⟩
    simpa only [not_and_or, not_exists] using h

theorem outw_responds (capacity : ℕ) (s : Drive) (port val : ℕ) :
    ∃ v t, Responds capacity s (.outw port val) v t := by
  by_cases h : port = ataData ∧ s.busy = 0 ∧
      ∃ address left, s.transfer = .fromHost address (left + 1)
  · obtain ⟨rfl, hbusy, address, left, htransfer⟩ := h
    exact ⟨0, _, .taken (b := 0) hbusy htransfer (fun _ => rfl)⟩
  · refine ⟨0, s, .nothingTaken ?_⟩
    simpa only [not_and_or, not_exists] using h

theorem drive_responds (capacity : ℕ) (s : Drive) (r : PortRequest) :
    ∃ v t, Responds capacity s r v t := by
  cases r with
  | inb port => exact inb_responds capacity s port
  | outb port val => exact outb_responds capacity s port val
  | inw port => exact inw_responds capacity s port
  | outw port val => exact outw_responds capacity s port val

/-- What a read of the status shows and changes. -/
theorem status_cases (h : Responds capacity s (.inb ataStatus) v t) :
    (v &&& 0x80 ≠ 0 ∧ v &&& 0x08 = 0 ∧ ∃ b < s.busy, t = { s with busy := b }) ∨
      (s.busy = 0 ∧ v &&& 0x80 = 0 ∧ (v &&& 0x08 ≠ 0 ↔ s.transfer ≠ .idle) ∧ t = s) := by
  cases h with
  | busyStatus hb hv hd => exact .inl ⟨hv, hd, _, hb, rfl⟩
  | status hb hv hd => exact .inr ⟨hb, hv, hd, rfl⟩
  | register hport => exact absurd rfl hport

theorem latch_cases (h : Responds capacity s (.outb port val) v t) (hport : port ≠ ataCmd)
    (hbusy : s.busy = 0) : t = s.latch port val := by
  cases h with
  | command => exact absurd rfl hport
  | refused => exact absurd rfl hport
  | early => exact absurd rfl hport
  | latched => rfl
  | lost _ hb => omega

theorem command_cases (h : Responds capacity s (.outb ataCmd val) v t) (hbusy : s.busy = 0)
    (hacc : s.Accepts capacity) : ∃ b, t = { s with transfer := s.prepared val, busy := b } := by
  cases h with
  | command => exact ⟨_, rfl⟩
  | refused _ hno => exact absurd hacc hno
  | early hb => omega
  | latched hport => exact absurd rfl hport
  | lost hport => exact absurd rfl hport

/-- A command itself leaves the sectors alone, whether it is taken or not. -/
theorem flush_cases (h : Responds capacity s (.outb ataCmd val) v t) : t.sectors = s.sectors := by
  cases h with
  | command => rfl
  | refused => rfl
  | early => rfl
  | latched hport => exact absurd rfl hport
  | lost hport => exact absurd rfl hport

theorem given_cases {w : ℕ} {words : List ℕ} (h : Responds capacity s (.inw ataData) v t)
    (hbusy : s.busy = 0) (htransfer : s.transfer = .toHost (w :: words)) :
    v = w ∧ t = { s with transfer := leftToRead words } := by
  cases h with
  | given _ ht =>
    rw [htransfer] at ht
    cases ht
    exact ⟨rfl, rfl⟩
  | nothingGiven hno =>
    rcases hno with hno | hno | hno
    · exact absurd rfl hno
    · exact absurd hbusy hno
    · exact absurd htransfer (hno w words)

theorem taken_cases {address left : ℕ} (h : Responds capacity s (.outw ataData val) v t)
    (hbusy : s.busy = 0) (htransfer : s.transfer = .fromHost address (left + 1)) :
    ∃ b, (0 < left → b = 0) ∧ t = { s with
      sectors := store16 s.sectors address val
      transfer := leftToWrite (address + 2) left
      busy := b } := by
  cases h with
  | taken _ ht hb =>
    rw [htransfer] at ht
    cases ht
    exact ⟨_, hb, rfl⟩
  | nothingTaken hno =>
    rcases hno with hno | hno | hno
    · exact absurd rfl hno
    · exact absurd hbusy hno
    · exact absurd htransfer (hno address left)

end Responses

section Words

variable {m src : Bytes} {a w : ℕ}

theorem storeWords_concat (m : Bytes) (a : ℕ) (words : List ℕ) (w : ℕ) :
    storeWords m a (words ++ [w]) = store16 (storeWords m a words) (a + 2 * words.length) w := by
  induction words generalizing m a with
  | nil => rfl
  | cons v words ih =>
    rw [List.cons_append, storeWords, ih, storeWords, List.length_cons]
    congr 1
    omega

theorem store16_load16 (m src : Bytes) (a b : ℕ) : store16 m a (load16 src b) =
    fun x => if x = a then src b else if x = a + 1 then src (b + 1) else m x := by
  have h0 := (src b).toNat_lt
  have hlow : UInt8.ofNat (load16 src b) = src b := by
    apply UInt8.toNat_inj.mp
    rw [load16, UInt8.toNat_ofNat']
    omega
  have hhigh : UInt8.ofNat (load16 src b / 256) = src (b + 1) := by
    have hdiv : load16 src b / 256 = (src (b + 1)).toNat := by
      rw [load16]
      omega
    rw [hdiv, UInt8.ofNat_toNat]
  funext x
  simp only [store16, hlow, hhigh]

theorem storeWords_loaded (m src : Bytes) (a n : ℕ) :
    storeWords m a ((List.range n).map fun i => load16 src (2 * i)) = copyIn m a (2 * n) src := by
  induction n with
  | zero =>
    funext x
    simp only [List.range_zero, List.map_nil, storeWords, copyIn]
    rw [if_neg (by omega)]
  | succ n ih =>
    rw [List.range_succ, List.map_append, List.map_singleton, storeWords_concat, ih,
      List.length_map, List.length_range, store16_load16]
    funext x
    simp only [copyIn]
    by_cases h0 : x = a + 2 * n
    · rw [if_pos h0, if_pos (by omega), show x - a = 2 * n by omega]
    · rw [if_neg h0]
      by_cases h1 : x = a + 2 * n + 1
      · rw [if_pos h1, if_pos (by omega), show x - a = 2 * n + 1 by omega]
      · rw [if_neg h1]
        by_cases hx : a ≤ x ∧ x < a + 2 * n
        · rw [if_pos hx, if_pos (by omega)]
        · rw [if_neg hx, if_neg (by omega)]

end Words

section Commands

variable {capacity lba port val : ℕ} {s : Drive}

theorem ataWait_spec (capacity : ℕ) (s : Drive) :
    Total (Responds capacity) (fun _ t => t = { s with busy := 0 }) ataWait s := by
  refine Total.await (fun u => u = { s with busy := u.busy }) Drive.busy
    (fun u _ => drive_responds capacity u _) ?_ ?_ rfl
  · intro u v t hu h hv
    rcases status_cases h with ⟨hbusy, -⟩ | ⟨hb, -, -, rfl⟩
    · exact absurd (of_decide_eq_true hv) hbusy
    · rw [hu, hb]
  · intro u v t hu h hv
    rcases status_cases h with ⟨-, -, b, hb, rfl⟩ | ⟨-, hbit, -⟩
    · refine ⟨?_, hb⟩
      rw [hu]
    · exact absurd hbit (of_decide_eq_false hv)

theorem outb_latch (capacity : ℕ) (hbusy : s.busy = 0) (hport : port ≠ ataCmd) (val : ℕ) :
    Total (Responds capacity) (fun _ t => t = s.latch port (val % 2 ^ 8)) (outb port val) s :=
  Total.tell (drive_responds capacity s _) fun _ _ h => latch_cases h hport hbusy

def Drive.addressed (s : Drive) (lba : ℕ) : Drive :=
  { s with
    select := (0xE0 ||| ((lba >>> 24) &&& 0x0F)) % 2 ^ 8
    count := 1
    low := lba % 2 ^ 8
    mid := (lba >>> 8) % 2 ^ 8
    high := (lba >>> 16) % 2 ^ 8
    busy := 0 }

theorem select_bits (k : ℕ) (hk : k < 16) : (0xE0 ||| k) % 2 ^ 8 &&& 0x40 ≠ 0 ∧
    (0xE0 ||| k) % 2 ^ 8 &&& 0x10 = 0 ∧ (0xE0 ||| k) % 2 ^ 8 % 16 = k := by
  revert k
  decide

/-- Only 28 bits of the number reach the registers. -/
theorem addressed_lba (s : Drive) (lba : ℕ) : (s.addressed lba).lba = lba % 2 ^ 28 := by
  have hmask : (lba >>> 24) &&& 0x0F = lba / 2 ^ 24 % 16 := by
    rw [Nat.shiftRight_eq_div_pow]
    exact and_low_mask _ 4
  have hbits := (select_bits (lba / 2 ^ 24 % 16) (Nat.mod_lt _ (by omega))).2.2
  simp only [Drive.lba, Drive.addressed]
  rw [hmask, hbits, Nat.shiftRight_eq_div_pow, Nat.shiftRight_eq_div_pow]
  omega

theorem addressed_accepts (h : lba % 2 ^ 28 < capacity) : (s.addressed lba).Accepts capacity := by
  have hmask : (lba >>> 24) &&& 0x0F < 16 := Nat.and_lt_two_pow _ (n := 4) (by omega)
  have hbits := select_bits _ hmask
  refine ⟨hbits.1, hbits.2.1, Nat.one_pos, ?_⟩
  rw [addressed_lba]
  exact h

/-- The drive takes the command for the sector. -/
theorem ataCommand_spec (s : Drive) (command : ℕ) (h : lba % 2 ^ 28 < capacity) :
    Total (Responds capacity) (fun _ t => ∃ b, t = { s.addressed lba with
      transfer := (s.addressed lba).prepared (command % 2 ^ 8), busy := b })
      (ataCommand lba command) s := by
  refine .bind (ataWait_spec capacity s) ?_
  rintro - _ rfl
  refine .bind (outb_latch capacity rfl (by decide) _) ?_
  rintro - _ rfl
  refine .bind (outb_latch capacity rfl (by decide) _) ?_
  rintro - _ rfl
  refine .bind (outb_latch capacity rfl (by decide) _) ?_
  rintro - _ rfl
  refine .bind (outb_latch capacity rfl (by decide) _) ?_
  rintro - _ rfl
  refine .bind (outb_latch capacity rfl (by decide) _) ?_
  rintro - _ rfl
  exact Total.tell (drive_responds capacity _ _) fun _ _ hc =>
    command_cases hc rfl (addressed_accepts (s := s) h)

end Commands

section Sectors

variable {capacity lba : ℕ} {s : Drive}

def sectorWords (d : Bytes) (sector : ℕ) : List ℕ :=
  (List.range 256).map fun i => load16 (diskRead d sector) (2 * i)

theorem sectorWords_length (d : Bytes) (sector : ℕ) : (sectorWords d sector).length = 256 := by
  rw [sectorWords, List.length_map, List.length_range]

theorem prepared_read (s : Drive) (lba : ℕ) : (s.addressed lba).prepared (0x20 % 2 ^ 8) =
    .toHost (sectorWords s.sectors (lba % 2 ^ 28)) := by
  have hwords : ∀ i, load16 s.sectors (512 * (s.addressed lba).lba + 2 * i) =
      load16 (diskRead s.sectors (lba % 2 ^ 28)) (2 * i) := by
    intro i
    rw [addressed_lba, diskRead, load16_window]
  have hcount : (s.addressed lba).count = 1 := rfl
  have hsectors : (s.addressed lba).sectors = s.sectors := rfl
  simp only [Drive.prepared, hcount, hsectors, hwords, sectorWords]
  rfl

theorem prepared_write (s : Drive) (lba : ℕ) : (s.addressed lba).prepared (0x30 % 2 ^ 8) =
    .fromHost (512 * (lba % 2 ^ 28)) 256 := by
  have hcount : (s.addressed lba).count = 1 := rfl
  simp only [Drive.prepared, hcount, addressed_lba]
  rfl

/-- The words that the drive has ready are taken in their order. -/
theorem takeWords_spec (capacity : ℕ) {words : List ℕ} (hbusy : s.busy = 0) (hne : words ≠ [])
    (htransfer : s.transfer = .toHost words) :
    Total (Responds capacity) (fun ws t => ws = words ∧ t = { s with transfer := .idle })
      (Program.askTimes (.inw ataData) words.length) s := by
  have hrun : Total (Responds capacity) (fun ws t => ws.length = words.length ∧
      [] ++ ws <+: words ∧ t = { s with transfer := leftToRead (words.drop ([] ++ ws).length) })
      (Program.askTimes (.inw ataData) words.length) s := by
    refine Total.askTimes (fun ws t => ws <+: words ∧ t = { s with
      transfer := leftToRead (words.drop ws.length) }) (fun u _ _ _ => drive_responds capacity u _)
      ?_ ⟨List.nil_prefix, ?_⟩
    · rintro u ws v t hlt ⟨⟨rest, rfl⟩, rfl⟩ h
      cases rest with
      | nil => simp at hlt
      | cons w rest =>
        obtain ⟨hv, ht⟩ := given_cases h hbusy (w := w) (show leftToRead
          ((ws ++ w :: rest).drop ws.length) = .toHost (w :: rest) by simp [leftToRead])
        refine ⟨⟨rest, by simp [hv]⟩, ?_⟩
        have hdrop : (ws ++ w :: rest).drop (ws ++ [v]).length = rest := by
          rw [hv, List.append_cons ws w rest, List.drop_left]
        rw [ht, hdrop]
    · rw [List.length_nil, List.drop_zero, leftToRead, if_neg hne, ← htransfer]
  refine hrun.mono ?_
  rintro ws t ⟨hlen, hpre, rfl⟩
  rw [List.nil_append] at hpre
  obtain rfl : ws = words := hpre.eq_of_length hlen
  refine ⟨rfl, ?_⟩
  rw [List.nil_append, List.drop_length]
  rfl

theorem ataReadSector_spec (s : Drive) (h : lba % 2 ^ 28 < capacity) (buffer : Bytes) :
    Total (Responds capacity) (fun filled t => t.sectors = s.sectors ∧
        filled = copyIn buffer 0 512 (diskRead s.sectors (lba % 2 ^ 28)))
      (ataReadSector lba buffer) s := by
  refine .bind (ataCommand_spec s 0x20 h) ?_
  rintro - _ ⟨b, rfl⟩
  refine .bind (ataWait_spec capacity _) ?_
  rintro - _ rfl
  have hlen := sectorWords_length s.sectors (lba % 2 ^ 28)
  have hne : sectorWords s.sectors (lba % 2 ^ 28) ≠ [] := by
    intro hnil
    rw [hnil] at hlen
    cases hlen
  rw [prepared_read]
  have htake := takeWords_spec capacity (s := { s.addressed lba with
    transfer := .toHost (sectorWords s.sectors (lba % 2 ^ 28)), busy := 0 }) rfl hne rfl
  rw [hlen] at htake
  refine .bind htake ?_
  rintro _ _ ⟨rfl, rfl⟩
  exact .done ⟨rfl, storeWords_loaded buffer (diskRead s.sectors (lba % 2 ^ 28)) 0 256⟩

def wordOf : PortRequest → ℕ
  | .outw _ val => val
  | _ => 0

/-- The words that are sent become the bytes of the sector. -/
theorem sendWords_spec (capacity : ℕ) {a : ℕ} {words : List ℕ} (hbusy : s.busy = 0)
    (hne : words ≠ []) (htransfer : s.transfer = .fromHost a words.length) :
    Total (Responds capacity) (fun _ t => t.sectors = storeWords s.sectors a words)
      (Program.tellAll (words.map (.outw ataData))) s := by
  have hmap : (words.map (PortRequest.outw ataData)).map wordOf = words := by
    rw [List.map_map]
    exact List.map_id words
  let Inv : List PortRequest → Drive → Prop := fun qs t =>
    t.transfer = leftToWrite (a + 2 * qs.length) (words.length - qs.length) ∧
    (qs.length < words.length → t.busy = 0) ∧
    t.sectors = storeWords s.sectors a (qs.map wordOf)
  have hstep : ∀ u qs r v t, qs ++ [r] <+: [] ++ words.map (.outw ataData) → Inv qs u →
      Responds capacity u r v t → Inv (qs ++ [r]) t := by
    rintro u qs r v t hpre ⟨htr, hb, hsec⟩ h
    rw [List.nil_append] at hpre
    have hlen := hpre.length_le
    simp only [List.length_append, List.length_singleton, List.length_map] at hlen
    obtain ⟨w, -, rfl⟩ : ∃ w ∈ words, PortRequest.outw ataData w = r :=
      List.mem_map.mp (hpre.subset (by simp))
    obtain ⟨left, hleft⟩ : ∃ left, words.length - qs.length = left + 1 :=
      ⟨words.length - qs.length - 1, by omega⟩
    rw [hleft, leftToWrite, if_neg (Nat.succ_ne_zero left)] at htr
    obtain ⟨b, hlast, rfl⟩ := taken_cases h (hb (by omega)) htr
    have hnext : words.length - (qs ++ [PortRequest.outw ataData w]).length = left := by
      rw [List.length_append, List.length_singleton]
      omega
    refine ⟨?_, ?_, ?_⟩
    · rw [hnext, List.length_append, List.length_singleton]
      rfl
    · rw [List.length_append, List.length_singleton]
      exact fun hmore => hlast (by omega)
    · rw [List.map_append, List.map_singleton, storeWords_concat, List.length_map, ← hsec]
      rfl
  have hstart : Inv [] s := by
    refine ⟨?_, fun _ => hbusy, rfl⟩
    have hlen : words.length ≠ 0 := fun h0 => hne (List.length_eq_zero_iff.mp h0)
    rw [List.length_nil, Nat.sub_zero, leftToWrite, if_neg hlen, htransfer]
    rfl
  refine (Total.tellAll Inv (fun u _ r _ _ => drive_responds capacity u r) hstep hstart).mono ?_
  rintro - t ⟨-, -, hsec⟩
  rwa [List.nil_append, hmap] at hsec

/-- The drive asks for the words of the sector once it is not busy. -/
theorem awaitRequest_spec (capacity : ℕ) (htransfer : s.transfer ≠ .idle) :
    Total (Responds capacity) (fun _ t => t = { s with busy := 0 })
      (Program.await (.inb ataStatus) fun v => v &&& 0x08 ≠ 0) s := by
  refine Total.await (fun u => u = { s with busy := u.busy }) Drive.busy
    (fun u _ => drive_responds capacity u _) ?_ ?_ rfl
  · intro u v t hu h hv
    rcases status_cases h with ⟨-, hclear, -⟩ | ⟨hb, -, -, rfl⟩
    · exact absurd hclear (of_decide_eq_true hv)
    · rw [hu, hb]
  · intro u v t hu h hv
    rcases status_cases h with ⟨-, -, b, hb, rfl⟩ | ⟨-, -, hask, -⟩
    · refine ⟨?_, hb⟩
      rw [hu]
    · refine absurd (hask.mpr ?_) (of_decide_eq_false hv)
      rw [hu]
      exact htransfer

theorem ataWriteSector_spec (s : Drive) (h : lba % 2 ^ 28 < capacity) (buffer : Bytes) :
    Total (Responds capacity) (fun _ t => t.sectors =
        diskWrite s.sectors (lba % 2 ^ 28) buffer) (ataWriteSector lba buffer) s := by
  refine .bind (ataCommand_spec s 0x30 h) ?_
  rintro - _ ⟨b, rfl⟩
  rw [prepared_write]
  refine .bind (awaitRequest_spec capacity (by simp)) ?_
  rintro - _ rfl
  have hne : (List.range 256).map (fun i => load16 buffer (2 * i)) ≠ [] := by simp
  have hsend := sendWords_spec capacity (a := 512 * (lba % 2 ^ 28)) (s := { s.addressed lba with
      transfer := .fromHost (512 * (lba % 2 ^ 28)) 256, busy := 0 }) rfl hne (by simp)
  rw [List.map_map] at hsend
  refine .bind hsend ?_
  intro _ u hsec
  rw [storeWords_loaded] at hsec
  have hflush : Total (Responds capacity) (fun _ t => t.sectors = u.sectors) (outb ataCmd 0xE7) u :=
    Total.tell (drive_responds capacity u _) fun _ _ hc => flush_cases hc
  refine .bind hflush ?_
  intro _ t ht
  refine (ataWait_spec capacity t).mono ?_
  rintro - _ rfl
  exact ht.trans hsec

end Sectors

section Calls

/-- `disk_read` fills a buffer, `disk_write` writes one. -/
inductive DiskCall where
  | read (sector : ℕ) (buffer : Bytes)
  | write (sector : ℕ) (buffer : Bytes)

def DiskCall.sector : DiskCall → ℕ
  | read sector _ => sector
  | write sector _ => sector

/-- The buffer behind the call. -/
def DiskCall.program : DiskCall → PortProgram Bytes
  | read sector buffer => ataReadSector sector buffer
  | write sector buffer => do
    ataWriteSector sector buffer
    return buffer

def programs : List DiskCall → PortProgram (List Bytes)
  | [] => pure []
  | call :: calls => do
    let buffer ← call.program
    let buffers ← programs calls
    return buffer :: buffers

/-- The sectors and the buffer behind a call on the array of sectors. Of the number of the
sector the drive sees 28 bits. -/
def DiskCall.effect (d : Bytes) : DiskCall → Bytes × Bytes
  | read sector buffer => (d, copyIn buffer 0 512 (diskRead d (sector % 2 ^ 28)))
  | write sector buffer => (diskWrite d (sector % 2 ^ 28) buffer, buffer)

def effects : Bytes → List DiskCall → Bytes × List Bytes
  | d, [] => (d, [])
  | d, call :: calls =>
    let r := call.effect d
    let rs := effects r.1 calls
    (rs.1, r.2 :: rs.2)

variable {capacity : ℕ}

theorem program_spec (s : Drive) (call : DiskCall) (h : call.sector % 2 ^ 28 < capacity) :
    Total (Responds capacity) (fun buffer t => (t.sectors, buffer) = call.effect s.sectors)
      call.program s := by
  cases call with
  | read sector buffer =>
    refine (ataReadSector_spec s h buffer).mono ?_
    rintro _ t ⟨hsec, rfl⟩
    rw [DiskCall.effect, hsec]
    rfl
  | write sector buffer =>
    refine .bind (ataWriteSector_spec s h buffer) ?_
    intro _ t hsec
    refine .done ?_
    rw [DiskCall.effect, hsec]
    rfl

/-- However long the drive is busy each time, the calls of the driver end, and they read and
write the drive as an array of sectors. -/
theorem driver_refines_sectors (s : Drive) (calls : List DiskCall)
    (h : ∀ call ∈ calls, call.sector % 2 ^ 28 < capacity) :
    Total (Responds capacity) (fun buffers t => (t.sectors, buffers) = effects s.sectors calls)
      (programs calls) s := by
  induction calls generalizing s with
  | nil => exact .done rfl
  | cons call calls ih =>
    refine .bind (program_spec s call (h call List.mem_cons_self)) ?_
    intro buffer t hcall
    refine .bind (ih t fun c hc => h c (List.mem_cons_of_mem _ hc)) ?_
    intro buffers u hcalls
    refine .done ?_
    rw [effects, ← hcall, ← hcalls]

/-- A write and a read of a drive that begins busy. -/
theorem driver_refines_sectors_busy : Total (Responds 8)
    (fun buffers t => (t.sectors, buffers) = effects (fun _ => 0)
      [.write 3 (fun _ => 7), .read 3 (fun _ => 0)])
    (programs [.write 3 (fun _ => 7), .read 3 (fun _ => 0)])
    ⟨fun _ => 0, 0, 0, 0, 0, 0, 5, .idle⟩ := by
  let s : Drive := ⟨fun _ => 0, 0, 0, 0, 0, 0, 5, .idle⟩
  have hcalls : ∀ call ∈ [DiskCall.write 3 (fun _ => 7), .read 3 (fun _ => 0)],
      call.sector % 2 ^ 28 < 8 := by
    intro call hcall
    rcases List.mem_pair.mp hcall with rfl | rfl <;> exact Nat.lt_of_sub_eq_succ rfl
  exact driver_refines_sectors s _ hcalls

end Calls

end AtaDriver
