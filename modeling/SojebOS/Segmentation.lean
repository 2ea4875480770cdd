import SojebOS.ProtectedMode
import Mathlib.Tactic.IntervalCases

/-!
# The descriptor table and ring 3

`gdt_init` and `tss_init` write the table of the kernel, and `enter_user_mode` leaves for ring 3
through it. Ring 3 then has flat segments of its own and can load no other, so that only paging
keeps it from the kernel.
-/
namespace Segmentation

open ByteMemory MachineWord ProtectedMode
open LabelledRuns (Run)

/-- Where the image has `gdt_entries`, `gdt_ptr` and `tss_entry`. -/
structure Image where
  gdtEntries : ℕ
  gdtPtr : ℕ
  tssEntry : ℕ
  gdt_top : gdtEntries + 48 ≤ 2 ^ 32
  tss_top : tssEntry + 104 ≤ 2 ^ 32
  ptr_apart : gdtPtr + 6 ≤ gdtEntries ∨ gdtEntries + 48 ≤ gdtPtr
  tss_apart : tssEntry + 104 ≤ gdtEntries ∨ gdtEntries + 48 ≤ tssEntry

def gdtSetGate (m : Bytes) (gdtEntries num base limit : ℕ) (access gran : UInt8) : Bytes :=
  let entry := gdtEntries + 8 * num
  let m := store16 m (entry + 2) (base &&& 0xFFFF)
  let m := store8 m (entry + 4) (UInt8.ofNat ((base >>> 16) &&& 0xFF))
  let m := store8 m (entry + 7) (UInt8.ofNat ((base >>> 24) &&& 0xFF))
  let m := store16 m entry (limit &&& 0xFFFF)
  let m := store8 m (entry + 6) (UInt8.ofNat ((limit >>> 16) &&& 0x0F))
  let m := store8 m (entry + 6) (m (entry + 6) ||| (gran &&& 0xF0))
  store8 m (entry + 5) access

/-- The stores of `gdt_init`. -/
def gdtInit (i : Image) (m : Bytes) : Bytes :=
  let m := store16 m i.gdtPtr (8 * 6 - 1)
  let m := store32 m (i.gdtPtr + 2) i.gdtEntries
  let m := gdtSetGate m i.gdtEntries 0 0 0 0 0
  let m := gdtSetGate m i.gdtEntries 1 0 0xFFFFFFFF 0x9A 0xCF
  let m := gdtSetGate m i.gdtEntries 2 0 0xFFFFFFFF 0x92 0xCF
  let m := gdtSetGate m i.gdtEntries 3 0 0xFFFFFFFF 0xFA 0xCF
  gdtSetGate m i.gdtEntries 4 0 0xFFFFFFFF 0xF2 0xCF

/-- `ds`, `es`, `fs` and `gs`, one after the other. -/
def loadAllData (m : Bytes) (cpu : Cpu) (selector : ℕ) : Option Cpu := do
  let cpu ← loadData m cpu .ds selector
  let cpu ← loadData m cpu .es selector
  let cpu ← loadData m cpu .fs selector
  loadData m cpu .gs selector

/-- `gdt_flush` up to its label `.flush`, with its argument. -/
def gdtFlush (m : Bytes) (cpu : Cpu) (gdtPtr flush : ℕ) : Option (Bytes × Cpu) := do
  let cpu := lgdt m cpu gdtPtr
  let cpu ← loadAllData m cpu 0x10
  let cpu ← loadStack m cpu 0x10
  let (m, cpu) ← push m cpu 0x08
  let (m, cpu) ← push m cpu flush
  let cpu ← lret m cpu
  return (m, cpu)

def memset (m : Bytes) (dest : ℕ) (c : UInt8) : ℕ → Bytes
  | 0 => m
  | n + 1 => memset (store8 m dest c) (u32 (dest + 1)) c n

abbrev tssSize : ℕ := 104

def tssSetStack (m : Bytes) (tssEntry kss kesp : ℕ) : Bytes :=
  store32 (store32 m (tssEntry + 8) kss) (tssEntry + 4) kesp

/-- The stores of `tss_init` to `tss_entry`. -/
def tssFields (m : Bytes) (tssEntry kss kesp : ℕ) : Bytes :=
  let m := memset m tssEntry 0 tssSize
  let m := tssSetStack m tssEntry kss kesp
  store16 m (tssEntry + 102) tssSize

def tssInit (i : Image) (m : Bytes) (cpu : Cpu) (idx kss kesp : ℕ) : Option (Bytes × Cpu) :=
  let m := tssFields m i.tssEntry kss kesp
  let m := gdtSetGate m i.gdtEntries idx i.tssEntry (tssSize - 1) 0x89 0x00
  ltr m cpu (idx * 8 % 2 ^ 16)

/-- The lines of `kernel_main` about segments. -/
def segmentsInit (i : Image) (flush kernelStackTop : ℕ) (m : Bytes) (cpu : Cpu) :
    Option (Bytes × Cpu) := do
  let m := gdtInit i m
  let (m, cpu) ← gdtFlush m cpu i.gdtPtr flush
  tssInit i m cpu 5 0x10 kernelStackTop

/-- The argument `k` of a C function at its first instruction. -/
def argument (m : Bytes) (cpu : Cpu) (k : ℕ) : Option ℕ :=
  (cpu.ss.descriptor.bind fun d => d.linear (u32 (cpu.esp + 4 * k)) 4).map (load32 m)

def enterUserMode (m : Bytes) (cpu : Cpu) : Option (Bytes × Cpu) := do
  let edx ← argument m cpu 1
  let ecx ← argument m cpu 2
  let cpu ← loadAllData m cpu 0x23
  let (m, cpu) ← push m cpu 0x23
  let (m, cpu) ← push m cpu ecx
  let (m, cpu) ← push m cpu cpu.eflags
  let (eax, cpu) ← pop m cpu
  let (m, cpu) ← push m cpu (eax ||| 0x200)
  let (m, cpu) ← push m cpu 0x1B
  let (m, cpu) ← push m cpu edx
  let cpu ← iret m cpu
  return (m, cpu)

def kernelCode : Descriptor := ⟨0, 0xFFFFF, 0x9A, 0xC⟩

def kernelData : Descriptor := ⟨0, 0xFFFFF, 0x92, 0xC⟩

def userCode : Descriptor := ⟨0, 0xFFFFF, 0xFA, 0xC⟩

def userData : Descriptor := ⟨0, 0xFFFFF, 0xF2, 0xC⟩

def task (i : Image) : Descriptor := ⟨i.tssEntry, 103, 0x89, 0⟩

/-- The task, when `ltr` has marked it. -/
def busyTask (i : Image) : Descriptor := { task i with access := 0x8B }

def entry (i : Image) : ℕ → Descriptor
  | 0 => ⟨0, 0, 0, 0⟩
  | 1 => kernelCode
  | 2 => kernelData
  | 3 => userCode
  | 4 => userData
  | _ => busyTask i

/-- The first `n` entries of the table. -/
def TableAt (i : Image) (n : ℕ) (m : Bytes) : Prop :=
  ∀ k < n, readDescriptor m (i.gdtEntries + 8 * k) = entry i k

/-- The task has the stack of the kernel, and its permissions for ports are beyond its limit. -/
structure TaskAt (i : Image) (kernelStackTop : ℕ) (m : Bytes) : Prop where
  esp0 : load32 m (i.tssEntry + 4) = kernelStackTop
  ss0 : load32 m (i.tssEntry + 8) = 0x10
  noPorts : (task i).lastByte < load16 m (i.tssEntry + 102)

def Uses (i : Image) (cpu : Cpu) : Prop := cpu.gdtBase = i.gdtEntries ∧ cpu.gdtLimit = 47

/-- The `n` bytes below `esp` and the `k` above are apart from the table and the task. -/
structure StackApart (i : Image) (esp n k : ℕ) : Prop where
  room : n ≤ esp
  top : esp + k ≤ 2 ^ 32
  gdt : esp + k ≤ i.gdtEntries ∨ i.gdtEntries + 48 ≤ esp - n
  tss : esp + k ≤ i.tssEntry ∨ i.tssEntry + 104 ≤ esp - n

section Gates

variable {m m' : Bytes} {t num base limit x : ℕ} {access gran : UInt8}

theorem gdtSetGate_outside (h : x < t + 8 * num ∨ t + 8 * num + 8 ≤ x) :
    gdtSetGate m t num base limit access gran x = m x := by
  simp only [gdtSetGate]
  rw [store8_other (by omega), store8_other (by omega), store8_other (by omega),
    store16_outside (by omega), store8_other (by omega), store8_other (by omega),
    store16_outside (by omega)]

theorem granularity_nibbles (a : ℕ) (gran : UInt8) :
    (UInt8.ofNat (a &&& 0x0F) ||| (gran &&& 0xF0)).toNat = a % 16 + 16 * (gran.toNat / 16) := by
  have hlow : a &&& 0x0F = a % 16 := and_low_mask a 4
  have hmask : (0xF0 : UInt8).toNat = 0xF0 := rfl
  have hhigh : gran.toNat &&& 0xF0 = gran.toNat / 16 * 2 ^ 4 :=
    and_high_mask (k := 4) gran.toNat_lt (by norm_num)
  have hor : gran.toNat / 16 * 2 ^ 4 ||| a % 16 = gran.toNat / 16 * 2 ^ 4 + a % 16 :=
    or_eq_add (Nat.mod_lt _ (by norm_num))
  rw [UInt8.toNat_or, UInt8.toNat_and, UInt8.toNat_ofNat', hlow,
    Nat.mod_eq_of_lt (by omega : a % 16 < 2 ^ 8), hmask, hhigh, Nat.or_comm, hor]
  omega

/-- A gate is read as it is set; of a limit that is too long the upper bits are lost. -/
theorem gdtSetGate_reads (m : Bytes) (t num : ℕ) (hbase : base < 2 ^ 32) (limit : ℕ)
    (access gran : UInt8) :
    readDescriptor (gdtSetGate m t num base limit access gran) (t + 8 * num) =
      ⟨base, limit % 2 ^ 20, access.toNat, gran.toNat / 16⟩ := by
  have hmask : ∀ a, a &&& 0xFFFF = a % 2 ^ 16 := fun a => and_low_mask a 16
  have hbyte : ∀ a, (UInt8.ofNat (a &&& 0xFF)).toNat = a % 2 ^ 8 := by
    intro a
    have hlow : a &&& 0xFF = a % 2 ^ 8 := and_low_mask a 8
    rw [UInt8.toNat_ofNat', hlow, Nat.mod_mod]
  have hbaseLow : load16 (gdtSetGate m t num base limit access gran) (t + 8 * num + 2) =
      base % 2 ^ 16 := by
    simp (disch := omega) only [gdtSetGate, load16_store8_apart, load16_store16_apart,
      load16_store16, hmask]
  have hbaseMiddle : gdtSetGate m t num base limit access gran (t + 8 * num + 4) =
      UInt8.ofNat ((base >>> 16) &&& 0xFF) := by
    simp (disch := omega) only [gdtSetGate, store8_other, store16_outside, store8_same]
  have hbaseHigh : gdtSetGate m t num base limit access gran (t + 8 * num + 7) =
      UInt8.ofNat ((base >>> 24) &&& 0xFF) := by
    simp (disch := omega) only [gdtSetGate, store8_other, store16_outside, store8_same]
  have hlimitLow : load16 (gdtSetGate m t num base limit access gran) (t + 8 * num) =
      limit % 2 ^ 16 := by
    simp (disch := omega) only [gdtSetGate, load16_store8_apart, load16_store16, hmask]
  have hgranularity : (gdtSetGate m t num base limit access gran (t + 8 * num + 6)).toNat =
      (limit >>> 16) % 16 + 16 * (gran.toNat / 16) := by
    rw [← granularity_nibbles]
    simp (disch := omega) only [gdtSetGate, store8_other, store8_same]
  have haccess : gdtSetGate m t num base limit access gran (t + 8 * num + 5) = access :=
    store8_same _ _ _
  have hgran := gran.toNat_lt
  simp only [readDescriptor, hbaseLow, hbaseMiddle, hbaseHigh, hlimitLow, hgranularity, haccess,
    hbyte, Nat.shiftRight_eq_div_pow, Descriptor.mk.injEq, true_and]
  omega

end Gates

section Tables

variable {i : Image} {m m' : Bytes} {cpu : Cpu} {n selector x : ℕ}

theorem TableAt.congr (h : TableAt i n m) (hn : n ≤ 6)
    (hm : ∀ x, i.gdtEntries ≤ x → x < i.gdtEntries + 48 → m' x = m x) : TableAt i n m' := by
  intro k hk
  rw [readDescriptor_congr fun x hx hx' => hm x (by omega) (by omega)]
  exact h k hk

theorem TableAt.set (h : TableAt i n m) (hn : n < 6) {base : ℕ} (hbase : base < 2 ^ 32)
    (limit : ℕ) (access gran : UInt8)
    (hentry : entry i n = ⟨base, limit % 2 ^ 20, access.toNat, gran.toNat / 16⟩) :
    TableAt i (n + 1) (gdtSetGate m i.gdtEntries n base limit access gran) := by
  intro k hk
  by_cases heq : k = n
  · subst heq
    rw [gdtSetGate_reads m i.gdtEntries k hbase limit access gran, hentry]
  · rw [readDescriptor_congr fun x hx hx' => gdtSetGate_outside (by omega)]
    exact h k (by omega)

theorem gdtInit_table (i : Image) (m : Bytes) : TableAt i 5 (gdtInit i m) := by
  have hnone : ∀ m, TableAt i 0 m := fun m k hk => absurd hk (Nat.not_lt_zero k)
  have hzero : 0 < 2 ^ 32 := by norm_num
  have hgates := (((((hnone (store32 (store16 m i.gdtPtr (8 * 6 - 1)) (i.gdtPtr + 2)
    i.gdtEntries)).set (by norm_num) hzero 0 0 0 rfl).set (by norm_num) hzero 0xFFFFFFFF 0x9A 0xCF
    rfl).set (by norm_num) hzero 0xFFFFFFFF 0x92 0xCF rfl).set (by norm_num) hzero 0xFFFFFFFF 0xFA
    0xCF rfl).set (by norm_num) hzero 0xFFFFFFFF 0xF2 0xCF rfl
  exact hgates

theorem gdtInit_operand (i : Image) (m : Bytes) : load16 (gdtInit i m) i.gdtPtr = 47 ∧
    load32 (gdtInit i m) (i.gdtPtr + 2) = i.gdtEntries := by
  have hkept : ∀ x, i.gdtPtr ≤ x → x < i.gdtPtr + 6 → gdtInit i m x =
      store32 (store16 m i.gdtPtr (8 * 6 - 1)) (i.gdtPtr + 2) i.gdtEntries x := by
    intro x hx hx'
    have hapart := i.ptr_apart
    simp (disch := omega) only [gdtInit, gdtSetGate_outside]
  have htop := i.gdt_top
  constructor
  · rw [load16_congr fun x hx hx' => hkept x hx (by omega), load16_store32_apart (by omega),
      load16_store16 (by norm_num)]
  · rw [load32_congr fun x hx hx' => hkept x (by omega) (by omega), load32_store32 (by omega)]

theorem memset_outside {dest : ℕ} {c : UInt8} (n : ℕ) (hd : dest + n ≤ 2 ^ 32)
    (hx : x < dest ∨ dest + n ≤ x) : memset m dest c n x = m x := by
  induction n generalizing m dest with
  | zero => rfl
  | succ n ih =>
    rw [memset]
    cases n with
    | zero => exact store8_other (by omega)
    | succ n =>
      rw [u32_of_lt (by omega : dest + 1 < 2 ^ 32), ih (by omega) (by omega)]
      exact store8_other (by omega)

theorem descriptorAt_entry (hu : Uses i cpu) (h : TableAt i n m) (hn : n ≤ 6)
    (hlocal : selector / 4 % 2 = 0) (hindex : selector / 8 < n) :
    descriptorAt m cpu selector = some (entry i (selector / 8)) := by
  rw [descriptorAt, hu.1, hu.2, if_pos ⟨hlocal, by omega⟩, Nat.mul_comm, h _ hindex]

theorem descriptorAt_some (hu : Uses i cpu) (h : TableAt i 6 m) {d : Descriptor}
    (hd : descriptorAt m cpu selector = some d) :
    selector / 8 < 6 ∧ selector / 4 % 2 = 0 ∧ d = entry i (selector / 8) := by
  obtain ⟨⟨hlocal, hlimit⟩, hread⟩ := Option.ite_none_right_eq_some.mp hd
  have hindex : selector / 8 < 6 := by
    rw [hu.2] at hlimit
    omega
  rw [hu.1, Nat.mul_comm, h _ hindex, Option.some_inj] at hread
  exact ⟨hindex, hlocal, hread.symm⟩

theorem busyTask_system (i : Image) : (busyTask i).isSegment = false := by
  have hbit : Nat.testBit 0x8B 4 = false := by decide
  exact hbit

theorem table_guarded (hu : Uses i cpu) (h : TableAt i 6 m) : Guarded (descriptorAt m cpu) := by
  intro selector d hnull hd hpresent
  obtain ⟨hindex, hlocal, rfl⟩ := descriptorAt_some hu h hd
  have hnonzero : selector / 8 ≠ 0 := by
    intro hzero
    have hselector : selector / 4 = 0 := by omega
    exact hnull hselector
  have hsegment : ∀ d ∈ [kernelCode, kernelData, userCode, userData],
      (d.isSegment ∨ d.dpl < 3) ∧ ¬ d.conforming := by decide
  generalize selector / 8 = k at hindex hnonzero
  interval_cases k
  · exact absurd rfl hnonzero
  · exact hsegment kernelCode (by decide)
  · exact hsegment kernelData (by decide)
  · exact hsegment userCode (by decide)
  · exact hsegment userData (by decide)
  · have hsystem := busyTask_system i
    have hdpl : (busyTask i).dpl = 0 := by norm_num [busyTask, Descriptor.dpl]
    refine ⟨.inr ?_, ?_⟩
    · exact hdpl.trans_lt (by norm_num)
    · simp [entry, Descriptor.conforming, Descriptor.isCode, hsystem]

end Tables

section Loads

variable {m : Bytes} {cpu : Cpu} {selector esp v : ℕ} {r : DataRegister} {d : Descriptor}

theorem flat_of (hbase : d.base = 0) (hlimit : d.limit = 0xFFFFF) (hflags : d.flags = 0xC)
    (hup : d.expandDown = false) : d.Flat := by
  intro offset n hle hn
  have hlast : d.lastByte = 2 ^ 32 - 1 := by
    rw [Descriptor.lastByte, hlimit, hflags, if_pos (by decide)]
    norm_num
  rw [Descriptor.linear, hup, if_neg Bool.false_ne_true, hlast, if_pos (by omega), hbase,
    Nat.zero_add, u32_of_lt (by omega)]

theorem kernelData_flat : kernelData.Flat := flat_of rfl rfl rfl (by decide)

theorem kernelCode_flat : kernelCode.Flat := flat_of rfl rfl rfl (by decide)

theorem userCode_flat : userCode.Flat := flat_of rfl rfl rfl (by decide)

theorem loadData_eq (hnull : ¬ IsNull selector) (hd : descriptorAt m cpu selector = some d)
    (hallowed : DataAllowed d (max cpu.cpl (rpl selector))) (r : DataRegister) :
    loadData m cpu r selector =
      some { cpu with data := Function.update cpu.data r ⟨selector, some d⟩ } := by
  rw [loadData, if_neg hnull, hd, Option.bind_some, if_pos hallowed]

theorem loadAllData_eq (hnull : ¬ IsNull selector) (hd : descriptorAt m cpu selector = some d)
    (hallowed : DataAllowed d (max cpu.cpl (rpl selector))) :
    loadAllData m cpu selector = some { cpu with data := fun _ => ⟨selector, some d⟩ } := by
  have hat : ∀ data, descriptorAt m { cpu with data := data } selector = some d := fun _ => hd
  have hload : ∀ data r, loadData m { cpu with data := data } r selector =
      some { cpu with data := Function.update data r ⟨selector, some d⟩ } :=
    fun data r => loadData_eq hnull (hat data) hallowed r
  have hall : Function.update (Function.update (Function.update (Function.update cpu.data .ds
      ⟨selector, some d⟩) .es ⟨selector, some d⟩) .fs ⟨selector, some d⟩) .gs ⟨selector, some d⟩ =
      fun _ => ⟨selector, some d⟩ := by
    funext q
    cases q <;> simp [Function.update]
  simp only [loadAllData, loadData_eq hnull hd hallowed, hload, Option.bind_eq_bind,
    Option.bind_some, hall]

theorem stackSegment_eq (hnull : ¬ IsNull selector) {level : ℕ}
    (hd : descriptorAt m cpu selector = some d)
    (hallowed : rpl selector = level ∧ d.writable ∧ d.dpl = level ∧ d.present) :
    stackSegment m cpu selector level = some d := by
  rw [stackSegment, if_neg hnull, hd, Option.bind_some, if_pos hallowed]

theorem push_flat (hss : cpu.ss.descriptor = some d) (hflat : d.Flat) (hesp : cpu.esp = esp + 4)
    (htop : esp + 4 < 2 ^ 32) (v : ℕ) :
    push m cpu v = some (store32 m esp v, { cpu with esp := esp }) := by
  have hsub : sub32 (esp + 4) 4 = esp := by
    rw [sub32_of_le (by omega) htop]
    omega
  rw [push, hss, Option.bind_some, hesp, hsub, hflat _ _ (by omega) (by norm_num),
    Option.map_some]

theorem pop_flat (hss : cpu.ss.descriptor = some d) (hflat : d.Flat) (hesp : cpu.esp = esp)
    (htop : esp + 4 < 2 ^ 32) :
    pop m cpu = some (load32 m esp, { cpu with esp := esp + 4 }) := by
  rw [pop, hss, Option.bind_some, hesp, hflat _ _ (by omega) (by norm_num), Option.map_some,
    u32_of_lt htop]

end Loads

section Entering

variable {i : Image} {m m₁ : Bytes} {cpu : Cpu} {flush esp n k x : ℕ}

theorem StackApart.table (hs : StackApart i esp n k) (h : TableAt i 6 m)
    (hm : ∀ x, x < esp - n ∨ esp ≤ x → m₁ x = m x) : TableAt i 6 m₁ := by
  have hgdt := hs.gdt
  exact h.congr le_rfl fun x hx hx' => hm x (by omega)

theorem farReturn_inner {d : Descriptor} {selector offset : ℕ} (hnull : ¬ IsNull selector)
    (hd : descriptorAt m cpu selector = some d) (hrpl : rpl selector = cpu.cpl)
    (hallowed : d.isCode ∧ ¬ d.conforming ∧ d.dpl = cpu.cpl ∧ d.present) (hflat : d.Flat)
    (hoffset : offset < 2 ^ 32) (ssSelector esp : ℕ) :
    farReturn m cpu selector offset ssSelector esp =
      some { cpu with cs := ⟨selector, some d⟩, eip := offset } := by
  obtain ⟨hcode, hconforming, hdpl, hpresent⟩ := hallowed
  have hlevel : if d.conforming then d.dpl ≤ rpl selector else d.dpl = rpl selector := by
    rw [if_neg hconforming, hdpl, hrpl]
  have hinside : (d.linear offset 1).isSome := by
    rw [hflat offset 1 (by omega) (by norm_num), Option.isSome_some]
  have hreturn : returnSegment m cpu selector offset = some d := by
    rw [returnSegment, if_neg (not_or.mpr ⟨hnull, hrpl ▸ lt_irrefl _⟩), hd, Option.bind_some,
      if_pos ⟨hcode, hlevel, hpresent, hinside⟩]
  rw [farReturn, hreturn, Option.bind_some, if_pos hrpl]

/-- The processor after `gdt_flush`. -/
def flushed (i : Image) (flush : ℕ) (cpu : Cpu) : Cpu :=
  { cpu with
    gdtBase := i.gdtEntries
    gdtLimit := 47
    cs := ⟨0x08, some kernelCode⟩
    ss := ⟨0x10, some kernelData⟩
    data := fun _ => ⟨0x10, some kernelData⟩
    eip := flush }

theorem loadKernelData (hu : Uses i cpu) (h : TableAt i 5 m) (hcpl : cpu.cpl = 0) :
    loadAllData m cpu 0x10 = some { cpu with data := fun _ => ⟨0x10, some kernelData⟩ } := by
  have hd : descriptorAt m cpu 0x10 = some kernelData :=
    descriptorAt_entry hu h (by norm_num) (by norm_num) (by norm_num)
  refine loadAllData_eq (by decide) hd ?_
  rw [hcpl]
  decide

theorem loadKernelStack (hu : Uses i cpu) (h : TableAt i 5 m) (hcpl : cpu.cpl = 0) :
    loadStack m cpu 0x10 = some { cpu with ss := ⟨0x10, some kernelData⟩ } := by
  have hd : descriptorAt m cpu 0x10 = some kernelData :=
    descriptorAt_entry hu h (by norm_num) (by norm_num) (by norm_num)
  have hsegment : stackSegment m cpu 0x10 0 = some kernelData :=
    stackSegment_eq (by decide) hd (by decide)
  rw [loadStack, hcpl, hsegment, Option.map_some]

theorem lret_kernel {b : ℕ} (hu : Uses i cpu) (h : TableAt i 5 m) (hcpl : cpu.cpl = 0)
    (hss : cpu.ss.descriptor = some kernelData) (hesp : cpu.esp = b) (htop : b + 8 < 2 ^ 32)
    (heip : load32 m b = flush) (hcs : load32 m (b + 4) = 0x08) :
    lret m cpu =
      some { cpu with cs := ⟨0x08, some kernelCode⟩, eip := flush, esp := b + 8 } := by
  have hd : descriptorAt m cpu 0x08 = some kernelCode :=
    descriptorAt_entry hu h (by norm_num) (by norm_num) (by norm_num)
  have hd' : descriptorAt m { cpu with esp := b + 8 } 0x08 = some kernelCode := hd
  have hpop : pop m cpu = some (load32 m b, { cpu with esp := b + 4 }) :=
    pop_flat hss kernelData_flat hesp (by omega)
  have hpop' : pop m { cpu with esp := b + 4 } =
      some (load32 m (b + 4), { cpu with esp := b + 8 }) :=
    pop_flat hss kernelData_flat rfl (by omega)
  have hrpl : rpl 0x08 = cpu.cpl := hcpl.symm
  have hallowed : kernelCode.isCode ∧ ¬ kernelCode.conforming ∧ kernelCode.dpl = cpu.cpl ∧
      kernelCode.present := by
    rw [hcpl]
    decide
  have hreturn : farReturn m { cpu with esp := b + 8 } 0x08 flush 0 0 =
      some { cpu with cs := ⟨0x08, some kernelCode⟩, eip := flush, esp := b + 8 } :=
    farReturn_inner (by decide) hd' hrpl hallowed kernelCode_flat (heip ▸ load32_lt m b) 0 0
  simp only [lret, hpop, hpop', heip, hcs, Option.bind_eq_bind, Option.bind_some, if_pos hrpl,
    hreturn]

/-- The processor in `gdt_flush` when all segments but the one for code are loaded. -/
def reloaded (i : Image) (cpu : Cpu) (esp : ℕ) : Cpu :=
  { cpu with
    gdtBase := i.gdtEntries
    gdtLimit := 47
    ss := ⟨0x10, some kernelData⟩
    data := fun _ => ⟨0x10, some kernelData⟩
    esp := esp }

theorem gdtFlush_eq {b : ℕ} (hesp : cpu.esp = b + 8) (hcpl : cpu.cpl = 0)
    (hs : StackApart i (b + 8) 8 4) (hflush : flush < 2 ^ 32) (htable : TableAt i 5 m)
    (hlimit : load16 m i.gdtPtr = 47) (hbase : load32 m (i.gdtPtr + 2) = i.gdtEntries) :
    gdtFlush m cpu i.gdtPtr flush =
      some (store32 (store32 m (b + 4) 8) b flush, flushed i flush cpu) := by
  have htop := hs.top
  have hgdt := hs.gdt
  have htable' : TableAt i 5 (store32 (store32 m (b + 4) 8) b flush) :=
    htable.congr (by norm_num) fun x hx hx' => by
      rw [store32_outside (by omega), store32_outside (by omega)]
  have hlgdt : lgdt m cpu i.gdtPtr = { cpu with gdtBase := i.gdtEntries, gdtLimit := 47 } := by
    rw [lgdt, hlimit, hbase]
  have hload : loadAllData m { cpu with gdtBase := i.gdtEntries, gdtLimit := 47 } 0x10 =
      some { reloaded i cpu cpu.esp with ss := cpu.ss } :=
    loadKernelData ⟨rfl, rfl⟩ htable hcpl
  have hstack : loadStack m { reloaded i cpu cpu.esp with ss := cpu.ss } 0x10 =
      some (reloaded i cpu (b + 8)) :=
    hesp ▸ loadKernelStack ⟨rfl, rfl⟩ htable hcpl
  have hpush : ∀ m e v, e + 4 < 2 ^ 32 →
      push m (reloaded i cpu (e + 4)) v = some (store32 m e v, reloaded i cpu e) :=
    fun m e v he => push_flat rfl kernelData_flat rfl he v
  have hcs : load32 (store32 (store32 m (b + 4) 8) b flush) (b + 4) = 0x08 := by
    rw [load32_store32_apart (by omega), load32_store32 (by norm_num)]
  have hlret : lret (store32 (store32 m (b + 4) 8) b flush) (reloaded i cpu b) =
      some (flushed i flush cpu) := by
    have huses : Uses i (reloaded i cpu b) := ⟨rfl, rfl⟩
    have hlow : (reloaded i cpu b).esp = b := rfl
    rw [lret_kernel huses htable' hcpl rfl hlow (by omega) (load32_store32 hflush) hcs, ← hesp]
    rfl
  simp only [gdtFlush, Option.bind_eq_bind, hlgdt]
  rw [hload, Option.bind_some, hstack, Option.bind_some, hpush m (b + 4) 0x08 (by omega),
    Option.bind_some, hpush _ b flush (by omega), Option.bind_some, hlret, Option.bind_some]
  rfl

theorem readDescriptor_access (m : Bytes) (a : ℕ) (v : UInt8) :
    readDescriptor (store8 m (a + 5) v) a = { readDescriptor m a with access := v.toNat } := by
  simp (disch := omega) only [readDescriptor, load16_store8_apart, store8_other, store8_same]

theorem ltr_marked (hu : Uses i cpu) (h : TableAt i 5 m)
    (hgate : readDescriptor m (i.gdtEntries + 8 * 5) = task i) :
    ltr m cpu 40 =
        some (store8 m (i.gdtEntries + 8 * 5 + 5) 0x8B, { cpu with tr := some (task i) }) ∧
      TableAt i 6 (store8 m (i.gdtEntries + 8 * 5 + 5) 0x8B) := by
  have hat : descriptorAt m cpu 40 = some (task i) := by
    rw [descriptorAt, hu.1, hu.2, if_pos (by decide)]
    exact congrArg some hgate
  have hbits : 0x89 % 32 = 9 ∧ Nat.testBit 0x89 7 = true := by decide
  have hfree : (task i).access % 32 = 9 ∧ (task i).present := hbits
  constructor
  · rw [ltr, if_neg (by decide), hat, Option.bind_some, if_pos hfree, hu.1]
    rfl
  · intro k hk
    by_cases heq : k = 5
    · subst heq
      rw [readDescriptor_access, hgate]
      rfl
    · have hlt : k < 5 := by omega
      rw [readDescriptor_congr fun x hx hx' => store8_other (by omega), h k hlt]

theorem tssFields_outside {t kss kesp : ℕ} (ht : t + 104 ≤ 2 ^ 32) (h : x < t ∨ t + 104 ≤ x) :
    tssFields m t kss kesp x = m x := by
  simp only [tssFields, tssSetStack]
  rw [store16_outside (by omega), store32_outside (by omega), store32_outside (by omega),
    memset_outside 104 ht h]

theorem tssFields_task (m : Bytes) {t top : ℕ} (htop : top < 2 ^ 32) :
    load32 (tssFields m t 0x10 top) (t + 4) = top ∧ load32 (tssFields m t 0x10 top) (t + 8) = 0x10 ∧
      load16 (tssFields m t 0x10 top) (t + 102) = 104 := by
  simp only [tssFields, tssSetStack]
  refine ⟨?_, ?_, load16_store16 (by norm_num)⟩
  · rw [load32_store16_apart (by omega), load32_store32 htop]
  · rw [load32_store16_apart (by omega), load32_store32_apart (by omega),
      load32_store32 (by norm_num)]

theorem tssInit_spec (hu : Uses i cpu) (h : TableAt i 5 m) {top : ℕ} (htop : top < 2 ^ 32) :
    ∃ m', tssInit i m cpu 5 0x10 top = some (m', { cpu with tr := some (task i) }) ∧
      TableAt i 6 m' ∧ TaskAt i top m' := by
  have hend := i.tss_top
  have hapart := i.tss_apart
  obtain ⟨hesp0, hss0, hports⟩ := tssFields_task m (t := i.tssEntry) htop
  have hold : TableAt i 5 (tssFields m i.tssEntry 0x10 top) :=
    h.congr (by norm_num) fun x hx hx' => tssFields_outside hend (by omega)
  have hinit : tssInit i m cpu 5 0x10 top = ltr (gdtSetGate (tssFields m i.tssEntry 0x10 top)
      i.gdtEntries 5 i.tssEntry (tssSize - 1) 0x89 0x00) cpu 40 := rfl
  rw [hinit]
  generalize tssFields m i.tssEntry 0x10 top = m₁ at hesp0 hss0 hports hold
  have hgate := gdtSetGate_reads m₁ i.gdtEntries 5 (by omega : i.tssEntry < 2 ^ 32) (tssSize - 1)
    0x89 0x00
  have hother : ∀ x, x < i.gdtEntries + 8 * 5 ∨ i.gdtEntries + 8 * 5 + 8 ≤ x →
      gdtSetGate m₁ i.gdtEntries 5 i.tssEntry (tssSize - 1) 0x89 0x00 x = m₁ x :=
    fun x hx => gdtSetGate_outside hx
  generalize gdtSetGate m₁ i.gdtEntries 5 i.tssEntry (tssSize - 1) 0x89 0x00 = m₂ at hgate hother
  have htable : TableAt i 5 m₂ := by
    intro k hk
    rw [readDescriptor_congr fun x hx hx' => hother x (by omega), hold k hk]
  obtain ⟨hltr, hsix⟩ := ltr_marked hu htable hgate
  have houtside : ∀ x, i.tssEntry ≤ x → x < i.tssEntry + 104 →
      store8 m₂ (i.gdtEntries + 8 * 5 + 5) 0x8B x = m₁ x := by
    intro x hx hx'
    rw [store8_other (by omega), hother x (by omega)]
  refine ⟨_, hltr, hsix, ?_, ?_, ?_⟩
  · rw [load32_congr fun x hx hx' => houtside x (by omega) (by omega), hesp0]
  · rw [load32_congr fun x hx hx' => houtside x (by omega) (by omega), hss0]
  · rw [load16_congr fun x hx hx' => houtside x (by omega) (by omega), hports]
    have hlast : (if Nat.testBit 0 3 then 4096 * 103 + 4095 else 103) < 104 := by decide
    exact hlast

theorem segmentsInit_spec (m : Bytes) {b top : ℕ} (hesp : cpu.esp = b + 8) (hcpl : cpu.cpl = 0)
    (hs : StackApart i (b + 8) 8 4) (hflush : flush < 2 ^ 32) (htop : top < 2 ^ 32) :
    ∃ m', segmentsInit i flush top m cpu =
      some (m', { flushed i flush cpu with tr := some (task i) }) ∧
      TableAt i 6 m' ∧ TaskAt i top m' := by
  have hgdt := hs.gdt
  obtain ⟨hlimit, hbase⟩ := gdtInit_operand i m
  have hflushed := gdtFlush_eq hesp hcpl hs hflush (gdtInit_table i m) hlimit hbase
  have htable : TableAt i 5 (store32 (store32 (gdtInit i m) (b + 4) 8) b flush) :=
    (gdtInit_table i m).congr (by norm_num) fun x hx hx' => by
      rw [store32_outside (by omega), store32_outside (by omega)]
  have hu : Uses i (flushed i flush cpu) := ⟨rfl, rfl⟩
  obtain ⟨m', htss, hafter⟩ := tssInit_spec hu htable htop
  refine ⟨m', ?_, hafter⟩
  rw [segmentsInit, Option.bind_eq_bind, hflushed, Option.bind_some]
  exact htss

theorem argument_eq {d : Descriptor} {k : ℕ} (hss : cpu.ss.descriptor = some d) (hflat : d.Flat)
    (htop : cpu.esp + 4 * k + 4 ≤ 2 ^ 32) :
    argument m cpu k = some (load32 m (cpu.esp + 4 * k)) := by
  rw [argument, hss, Option.bind_some, u32_of_lt (by omega), hflat _ _ (by omega) (by norm_num),
    Option.map_some]

theorem loadUserData (hu : Uses i cpu) (h : TableAt i 6 m) (hcpl : cpu.cpl = 0) :
    loadAllData m cpu 0x23 = some { cpu with data := fun _ => ⟨0x23, some userData⟩ } := by
  have hd : descriptorAt m cpu 0x23 = some userData :=
    descriptorAt_entry hu h (by norm_num) (by norm_num) (by norm_num)
  refine loadAllData_eq (by decide) hd ?_
  rw [hcpl]
  decide

def inRing3 (eip esp eflags : ℕ) (cpu : Cpu) : Cpu :=
  { cpu with
    cpl := 3
    cs := ⟨0x1B, some userCode⟩
    ss := ⟨0x23, some userData⟩
    data := fun _ => ⟨0x23, some userData⟩
    eip := eip
    esp := esp
    eflags := eflags }

def withUserData (cpu : Cpu) (esp : ℕ) : Cpu :=
  { cpu with data := fun _ => ⟨0x23, some userData⟩, esp := esp }

theorem pop_withUserData {e : ℕ} (m : Bytes) (hss : cpu.ss.descriptor = some kernelData)
    (he : e + 4 < 2 ^ 32) :
    pop m (withUserData cpu e) = some (load32 m e, withUserData cpu (e + 4)) := by
  have hss' : (withUserData cpu e).ss.descriptor = some kernelData := hss
  exact pop_flat hss' kernelData_flat rfl he

theorem iret_user {b entry stack flags : ℕ} (hu : Uses i cpu) (h : TableAt i 6 m)
    (hcpl : cpu.cpl = 0) (hss : cpu.ss.descriptor = some kernelData) (htop : b + 20 < 2 ^ 32)
    (heip : load32 m b = entry) (hcs : load32 m (b + 4) = 0x1B)
    (hflags : load32 m (b + 8) = flags) (hstack : load32 m (b + 12) = stack)
    (hdest : load32 m (b + 16) = 0x23) :
    iret m (withUserData cpu b) = some (inRing3 entry stack flags cpu) := by
  have hpop : ∀ e, e + 4 < 2 ^ 32 →
      pop m (withUserData cpu e) = some (load32 m e, withUserData cpu (e + 4)) :=
    fun e he => pop_withUserData m hss he
  have huses : Uses i (withUserData cpu (b + 20)) := hu
  have hcode : descriptorAt m (withUserData cpu (b + 20)) 0x1B = some userCode :=
    descriptorAt_entry huses h (by norm_num) (by norm_num) (by norm_num)
  have hdata : descriptorAt m (withUserData cpu (b + 20)) 0x23 = some userData :=
    descriptorAt_entry huses h (by norm_num) (by norm_num) (by norm_num)
  have hring0 : ∀ e, (withUserData cpu e).cpl = 0 := fun _ => hcpl
  have hlevel : ∀ e, ¬ rpl 0x1B = (withUserData cpu e).cpl := by
    intro e
    rw [hring0]
    decide
  have hnot : ¬ (IsNull 0x1B ∨ rpl 0x1B < (withUserData cpu (b + 20)).cpl) := by
    rw [hring0]
    decide
  have hinside : (userCode.linear entry 1).isSome := by
    rw [userCode_flat entry 1 (heip ▸ load32_lt m b) (by norm_num), Option.isSome_some]
  have hreturn : returnSegment m (withUserData cpu (b + 20)) 0x1B entry = some userCode := by
    rw [returnSegment, if_neg hnot, hcode, Option.bind_some,
      if_pos ⟨by decide, by decide, by decide, hinside⟩]
  have hsegment : stackSegment m (withUserData cpu (b + 20)) 0x23 (rpl 0x1B) = some userData :=
    stackSegment_eq (by decide) hdata (by decide)
  have hkept : keptData (rpl 0x1B) ⟨0x23, some userData⟩ = ⟨0x23, some userData⟩ := by decide
  simp only [iret, Option.bind_eq_bind]
  rw [hpop b (by omega), Option.bind_some, hpop (b + 4) (by omega), Option.bind_some,
    hpop (b + 8) (by omega), Option.bind_some, hcs, if_neg (hlevel b),
    hpop (b + 12) (by omega), Option.bind_some, hpop (b + 16) (by omega), Option.bind_some,
    heip, hflags, hstack, hdest, farReturn, hreturn, Option.bind_some, if_neg (hlevel (b + 20)),
    hsegment]
  simp only [Option.map_some, withUserData, hkept]
  rfl

/-- What `enter_user_mode` stores below `b + 20`. -/
def userFrame (m : Bytes) (b edx ecx eflags : ℕ) : Bytes :=
  let m := store32 (store32 (store32 m (b + 16) 0x23) (b + 12) ecx) (b + 8) eflags
  store32 (store32 (store32 m (b + 8) (eflags ||| 0x200)) (b + 4) 0x1B) b edx

theorem userFrame_outside {b edx ecx eflags : ℕ} (h : x < b ∨ b + 20 ≤ x) :
    userFrame m b edx ecx eflags x = m x := by
  simp (disch := omega) only [userFrame, store32_outside]

theorem enterUserMode_spec {b : ℕ} (hu : Uses i cpu) (h : TableAt i 6 m) (hcpl : cpu.cpl = 0)
    (hss : cpu.ss.descriptor = some kernelData) (hesp : cpu.esp = b + 20)
    (hs : StackApart i (b + 20) 20 12) (hflags : cpu.eflags < 2 ^ 32) :
    enterUserMode m cpu =
      some (userFrame m b (load32 m (b + 24)) (load32 m (b + 28)) cpu.eflags,
        inRing3 (load32 m (b + 24)) (load32 m (b + 28)) (cpu.eflags ||| 0x200) cpu) := by
  have htop := hs.top
  have hgdt := hs.gdt
  have hargument : ∀ k, k ≤ 2 → argument m cpu k = some (load32 m (b + 20 + 4 * k)) := by
    intro k hk
    rw [argument_eq hss kernelData_flat (by omega), hesp]
  have hedx : argument m cpu 1 = some (load32 m (b + 24)) := hargument 1 (by norm_num)
  have hecx : argument m cpu 2 = some (load32 m (b + 28)) := hargument 2 le_rfl
  have hentry := load32_lt m (b + 24)
  have hstack := load32_lt m (b + 28)
  generalize load32 m (b + 24) = edx at hedx hentry
  generalize load32 m (b + 28) = ecx at hecx hstack
  have hset : cpu.eflags ||| 0x200 < 2 ^ 32 := Nat.or_lt_two_pow hflags (by norm_num)
  have hload : loadAllData m cpu 0x23 = some (withUserData cpu (b + 20)) := by
    rw [loadUserData hu h hcpl, withUserData, ← hesp]
  have hpush : ∀ m e v, e + 4 < 2 ^ 32 →
      push m (withUserData cpu (e + 4)) v = some (store32 m e v, withUserData cpu e) := by
    intro m e v he
    have hss' : (withUserData cpu (e + 4)).ss.descriptor = some kernelData := hss
    exact push_flat hss' kernelData_flat rfl he v
  have hpop : ∀ m, pop (store32 m (b + 8) cpu.eflags) (withUserData cpu (b + 8)) =
      some (cpu.eflags, withUserData cpu (b + 12)) := by
    intro m
    rw [pop_withUserData _ hss (by omega), load32_store32 hflags]
  have htable : TableAt i 6 (userFrame m b edx ecx cpu.eflags) :=
    h.congr le_rfl fun x hx hx' => userFrame_outside (by omega)
  have hiret : iret (userFrame m b edx ecx cpu.eflags) (withUserData cpu b) =
      some (inRing3 edx ecx (cpu.eflags ||| 0x200) cpu) := by
    refine iret_user hu htable hcpl hss (by omega) ?_ ?_ ?_ ?_ ?_ <;>
      simp (disch := omega) only [userFrame, load32_store32_apart, load32_store32]
  have hpushf : ∀ m, push m (withUserData cpu (b + 12)) (withUserData cpu (b + 12)).eflags =
      some (store32 m (b + 8) cpu.eflags, withUserData cpu (b + 8)) :=
    fun m => hpush m (b + 8) cpu.eflags (by omega)
  simp only [enterUserMode, Option.bind_eq_bind]
  -- the flags go over the stack to be changed
  rw [hedx, Option.bind_some, hecx, Option.bind_some, hload, Option.bind_some,
    hpush m (b + 16) 0x23 (by omega), Option.bind_some, hpush _ (b + 12) ecx (by omega),
    Option.bind_some, hpushf, Option.bind_some, hpop, Option.bind_some,
    hpush _ (b + 8) (cpu.eflags ||| 0x200) (by omega), Option.bind_some,
    hpush _ (b + 4) 0x1B (by omega), Option.bind_some, hpush _ b edx (by omega), Option.bind_some]
  change (iret (userFrame m b edx ecx cpu.eflags) (withUserData cpu b)).bind _ = _
  rw [hiret]
  rfl

theorem owned_user {s : Segment} {d : Descriptor} (hu : Uses i cpu) (h : TableAt i 6 m)
    (hs : Owned (descriptorAt m cpu) s) (hd : s.descriptor = some d) :
    d = userCode ∨ d = userData := by
  obtain ⟨hdpl, hsegment, selector, hat⟩ := hs d hd
  obtain ⟨hindex, -, rfl⟩ := descriptorAt_some hu h hat
  have hkernel : kernelCode.dpl ≠ 3 ∧ kernelData.dpl ≠ 3 := by decide
  have hnone : (⟨0, 0, 0, 0⟩ : Descriptor).dpl ≠ 3 := by decide
  generalize selector / 8 = k at hindex hdpl hsegment
  interval_cases k
  · exact absurd hdpl hnone
  · exact absurd hdpl hkernel.1
  · exact absurd hdpl hkernel.2
  · exact .inl rfl
  · exact .inr rfl
  · exact absurd hsegment (busyTask_system i ▸ Bool.false_ne_true)

theorem inRing3_confined {entry stack flags : ℕ} (hu : Uses i cpu) (h : TableAt i 6 m) :
    Confined (descriptorAt m cpu) m (inRing3 entry stack flags cpu) := by
  have hcode : descriptorAt m cpu 0x1B = some userCode :=
    descriptorAt_entry hu h (by norm_num) (by norm_num) (by norm_num)
  have hdata : descriptorAt m cpu 0x23 = some userData :=
    descriptorAt_entry hu h (by norm_num) (by norm_num) (by norm_num)
  have hloaded := owned_loaded hdata (by decide) (by decide) 0x23
  exact ⟨rfl, fun _ => rfl, table_guarded hu h, owned_loaded hcode (by decide) (by decide) 0x1B,
    hloaded, fun _ => hloaded⟩

/-- Ring 3 runs, and what it has loaded is its code or its data. -/
structure UserOnly (cpu : Cpu) : Prop where
  cpl : cpu.cpl = 3
  cs : ∀ d, cpu.cs.descriptor = some d → d = userCode ∨ d = userData
  ss : ∀ d, cpu.ss.descriptor = some d → d = userCode ∨ d = userData
  data : ∀ r d, (cpu.data r).descriptor = some d → d = userCode ∨ d = userData

/-- A program runs at its entry on its stack, with interrupts, which go to the kernel's stack. -/
structure Entered (i : Image) (kernelStackTop entry stack : ℕ) (m : Bytes) (cpu : Cpu) : Prop where
  eip : cpu.eip = entry
  esp : cpu.esp = stack
  interrupts : cpu.eflags.testBit 9
  tr : cpu.tr = some (task i)
  task : TaskAt i kernelStackTop m

def SameSegments (i : Image) (m m' : Bytes) : Prop :=
  ∀ x, i.gdtEntries ≤ x ∧ x < i.gdtEntries + 48 ∨ i.tssEntry ≤ x ∧ x < i.tssEntry + 104 →
    m' x = m x

theorem TaskAt.congr {top : ℕ} (h : TaskAt i top m) (hm : SameSegments i m m₁) :
    TaskAt i top m₁ := by
  have hkept : ∀ x, i.tssEntry ≤ x → x < i.tssEntry + 104 → m₁ x = m x :=
    fun x hx hx' => hm x (.inr ⟨hx, hx'⟩)
  refine ⟨?_, ?_, ?_⟩
  · rw [load32_congr fun x hx hx' => hkept x (by omega) (by omega), h.esp0]
  · rw [load32_congr fun x hx hx' => hkept x (by omega) (by omega), h.ss0]
  · rw [load16_congr fun x hx hx' => hkept x (by omega) (by omega)]
    exact h.noPorts

/-- From the boot on the way into a program is open: `enter_user_mode` starts it in ring 3, where
it never gets another segment than its own, whatever it loads and wherever it jumps. -/
theorem programs_keep_to_user_segments (m : Bytes) {b top : ℕ} (hesp : cpu.esp = b + 8)
    (hcpl : cpu.cpl = 0) (hs : StackApart i (b + 8) 8 4) (hflush : flush < 2 ^ 32)
    (htop : top < 2 ^ 32) :
    ∃ m₁ c₁, segmentsInit i flush top m cpu = some (m₁, c₁) ∧
      ∀ m₂ e eip eflags, SameSegments i m₁ m₂ → StackApart i (e + 20) 20 12 → eflags < 2 ^ 32 →
        ∃ m₃ c₃, enterUserMode m₂ { c₁ with esp := e + 20, eip := eip, eflags := eflags } =
            some (m₃, c₃) ∧
          Entered i top (load32 m₂ (e + 24)) (load32 m₂ (e + 28)) m₃ c₃ ∧
          ∀ es t, Run Step (m₃, c₃) es t → UserOnly t.2 := by
  obtain ⟨m₁, hinit, htable, htask⟩ := segmentsInit_spec m hesp hcpl hs hflush htop
  refine ⟨m₁, _, hinit, fun m₂ e eip eflags hsame hstack hflags => ?_⟩
  have hgdt := hstack.gdt
  have htss := hstack.tss
  have htable₂ : TableAt i 6 m₂ :=
    htable.congr le_rfl fun x hx hx' => hsame x (.inl ⟨hx, hx'⟩)
  let c : Cpu := { flushed i flush cpu with
    tr := some (task i), esp := e + 20, eip := eip, eflags := eflags }
  have hu : Uses i c := ⟨rfl, rfl⟩
  have henter := enterUserMode_spec hu htable₂ hcpl rfl rfl hstack hflags
  have hframe : SameSegments i m₂
      (userFrame m₂ e (load32 m₂ (e + 24)) (load32 m₂ (e + 28)) eflags) :=
    fun x hx => userFrame_outside (by omega)
  have htable₃ := htable₂.congr le_rfl fun x hx hx' => hframe x (.inl ⟨hx, hx'⟩)
  refine ⟨_, _, henter, ⟨rfl, rfl, ?_, rfl, (htask.congr hsame).congr hframe⟩, fun es t hrun => ?_⟩
  · change (eflags ||| 0x200).testBit 9 = true
    have hbit : Nat.testBit 0x200 9 = true := by decide
    rw [Nat.testBit_or, hbit, Bool.or_true]
  · have hconfined := Confined.run (inRing3_confined hu htable₃) hrun
    exact ⟨hconfined.cpl, fun d hd => owned_user hu htable₃ hconfined.cs hd,
      fun d hd => owned_user hu htable₃ hconfined.ss hd,
      fun r d hd => owned_user hu htable₃ (hconfined.data r) hd⟩

def bootImage : Image :=
  ⟨0x1000, 0x2000, 0x3000, by norm_num, by norm_num, by norm_num, by norm_num⟩

def bootCpu : Cpu :=
  ⟨0, 0, 0, ⟨0x10, some kernelCode⟩, ⟨0x18, some kernelData⟩, fun _ => ⟨0x18, some kernelData⟩,
    none, 0, 0x8008, 2⟩

theorem bootCpu_booted :
    (segmentsInit bootImage 0x100000 0x9000 (fun _ => 0) bootCpu).isSome := by
  decide +kernel

def booted : Bytes × Cpu :=
  (segmentsInit bootImage 0x100000 0x9000 (fun _ => 0) bootCpu).get bootCpu_booted

theorem booted_enters : (enterUserMode booted.1
    { booted.2 with esp := 0x8000 + 20, eip := 0, eflags := 2 }).isSome := by
  decide +kernel

def entered : Bytes × Cpu :=
  (enterUserMode booted.1 { booted.2 with esp := 0x8000 + 20, eip := 0, eflags := 2 }).get
    booted_enters

theorem entered_loads : (loadData entered.1 entered.2 .ds 0x1B).isSome := by decide +kernel

/-- The program has loaded its code into `ds`. -/
def loaded : Cpu := (loadData entered.1 entered.2 .ds 0x1B).get entered_loads

theorem programs_keep_to_user_segments_loaded :
    (loaded.data .ds).descriptor = some userCode ∧ UserOnly loaded := by
  have hroom : ∀ n k, n ≤ 20 → k ≤ 12 → ∀ esp, 0x8000 ≤ esp → esp ≤ 0x9000 →
      StackApart bootImage esp n k := by
    intro n k hn hk esp hlow hhigh
    have hgdt : 0x1000 + 48 ≤ esp - n := by omega
    have htss : 0x3000 + 104 ≤ esp - n := by omega
    exact ⟨by omega, by omega, .inr hgdt, .inr htss⟩
  have hesp : bootCpu.esp = 0x8000 + 8 := rfl
  have hflush : 0x100000 < 2 ^ 32 := by norm_num
  have htop : 0x9000 < 2 ^ 32 := by norm_num
  obtain ⟨m₁, c₁, hinit, hafter⟩ := programs_keep_to_user_segments (fun _ => 0) hesp rfl
    (hroom 8 4 (by norm_num) (by norm_num) _ (by norm_num) (by norm_num)) hflush htop
  have hbooted : (m₁, c₁) = booted := by
    rw [booted, ← Option.some_inj, Option.some_get]
    exact hinit.symm
  obtain ⟨rfl, rfl⟩ : m₁ = booted.1 ∧ c₁ = booted.2 := Prod.ext_iff.mp hbooted
  obtain ⟨m₃, c₃, henter, -, hruns⟩ := hafter booted.1 0x8000 0 2 (fun _ _ => rfl)
    (hroom 20 12 le_rfl le_rfl _ (by norm_num) (by norm_num)) (by norm_num)
  have hentered : (m₃, c₃) = entered := by
    rw [entered, ← Option.some_inj, Option.some_get]
    exact henter.symm
  have hload : loadData m₃ c₃ .ds 0x1B = some loaded := by
    rw [loaded, Option.some_get, ← hentered]
  have hrun := hruns [.loadData .ds 0x1B] (m₃, loaded) (.single (.loadData hload))
  dsimp only at hrun
  exact ⟨by decide +kernel, hrun⟩

end Entering

end Segmentation
