import SojebOS.ByteMemory
import SojebOS.MachineWord
import SojebOS.LabelledRuns

/-!
# Segments of the 80386's protected mode

Descriptors as they lie in a table, what loading a segment register asks for, and the transfers
of control that keep or lower the privilege. A table that guards its privileged segments keeps
ring 3 out of them, whatever it loads and wherever it jumps.
-/
namespace ProtectedMode

open ByteMemory MachineWord
open LabelledRuns (Run)

/-- The fields of a descriptor: a 20-bit limit, the access byte and the four flags. -/
structure Descriptor where
  base : ℕ
  limit : ℕ
  access : ℕ
  flags : ℕ
  deriving DecidableEq, Repr

def readDescriptor (m : Bytes) (a : ℕ) : Descriptor where
  base := load16 m (a + 2) + 65536 * (m (a + 4)).toNat + 16777216 * (m (a + 7)).toNat
  limit := load16 m a + 65536 * ((m (a + 6)).toNat % 16)
  access := (m (a + 5)).toNat
  flags := (m (a + 6)).toNat / 16

namespace Descriptor

def present (d : Descriptor) : Bool := d.access.testBit 7

def dpl (d : Descriptor) : ℕ := d.access / 32 % 4

def isSegment (d : Descriptor) : Bool := d.access.testBit 4

def isCode (d : Descriptor) : Bool := d.isSegment && d.access.testBit 3

def isData (d : Descriptor) : Bool := d.isSegment && !d.access.testBit 3

def conforming (d : Descriptor) : Bool := d.isCode && d.access.testBit 2

def expandDown (d : Descriptor) : Bool := d.isData && d.access.testBit 2

def readable (d : Descriptor) : Bool := d.isData || d.isCode && d.access.testBit 1

def writable (d : Descriptor) : Bool := d.isData && d.access.testBit 1

def lastByte (d : Descriptor) : ℕ :=
  if d.flags.testBit 3 then 4096 * d.limit + 4095 else d.limit

/-- The linear address of `n` bytes at an offset. -/
def linear (d : Descriptor) (offset n : ℕ) : Option ℕ :=
  if d.expandDown then
    if d.lastByte < offset ∧ offset + n ≤ (if d.flags.testBit 2 then 2 ^ 32 else 2 ^ 16) then
      some (u32 (d.base + offset))
    else none
  else if offset + n ≤ d.lastByte + 1 then some (u32 (d.base + offset))
  else none

def Flat (d : Descriptor) : Prop :=
  ∀ offset n, offset + n ≤ 2 ^ 32 → 0 < n → d.linear offset n = some offset

end Descriptor

/-- A segment register: what the program sees, and the descriptor unless the selector is null. -/
structure Segment where
  selector : ℕ
  descriptor : Option Descriptor
  deriving DecidableEq, Repr

inductive DataRegister where
  | ds
  | es
  | fs
  | gs
  deriving DecidableEq, Repr

/-- `tr` is the descriptor of the task register. -/
structure Cpu where
  gdtBase : ℕ
  gdtLimit : ℕ
  cpl : ℕ
  cs : Segment
  ss : Segment
  data : DataRegister → Segment
  tr : Option Descriptor
  eip : ℕ
  esp : ℕ
  eflags : ℕ

def rpl (selector : ℕ) : ℕ := selector % 4

def IsNull (selector : ℕ) : Prop := selector / 4 = 0

instance (selector : ℕ) : Decidable (IsNull selector) := inferInstanceAs (Decidable (_ = _))

/-- There is no local table, so a selector of one has no descriptor. -/
def descriptorAt (m : Bytes) (cpu : Cpu) (selector : ℕ) : Option Descriptor :=
  if selector / 4 % 2 = 0 ∧ selector / 8 * 8 + 7 ≤ cpu.gdtLimit then
    some (readDescriptor m (cpu.gdtBase + selector / 8 * 8))
  else none

/-- `d` may be loaded for data under a privilege of `level`. -/
def DataAllowed (d : Descriptor) (level : ℕ) : Prop :=
  d.readable ∧ (d.conforming ∨ level ≤ d.dpl) ∧ d.present

instance (d : Descriptor) (level : ℕ) : Decidable (DataAllowed d level) :=
  inferInstanceAs (Decidable (_ ∧ _))

/-- `mov` to a data segment register. `none` stands for a fault, here and below. -/
def loadData (m : Bytes) (cpu : Cpu) (r : DataRegister) (selector : ℕ) : Option Cpu :=
  if IsNull selector then some { cpu with data := Function.update cpu.data r ⟨selector, none⟩ }
  else
    (descriptorAt m cpu selector).bind fun d =>
      if DataAllowed d (max cpu.cpl (rpl selector)) then
        some { cpu with data := Function.update cpu.data r ⟨selector, some d⟩ }
      else none

/-- A descriptor for the stack of a privilege. -/
def stackSegment (m : Bytes) (cpu : Cpu) (selector level : ℕ) : Option Descriptor :=
  if IsNull selector then none
  else
    (descriptorAt m cpu selector).bind fun d =>
      if rpl selector = level ∧ d.writable ∧ d.dpl = level ∧ d.present then some d else none

/-- `mov` to `ss`. -/
def loadStack (m : Bytes) (cpu : Cpu) (selector : ℕ) : Option Cpu :=
  (stackSegment m cpu selector cpu.cpl).map fun d => { cpu with ss := ⟨selector, some d⟩ }

def farJump (m : Bytes) (cpu : Cpu) (selector offset : ℕ) : Option Cpu :=
  if IsNull selector then none
  else
    (descriptorAt m cpu selector).bind fun d =>
      if d.isCode ∧ (if d.conforming then d.dpl ≤ cpu.cpl else
          rpl selector ≤ cpu.cpl ∧ d.dpl = cpu.cpl) ∧ d.present ∧ (d.linear offset 1).isSome then
        some { cpu with cs := ⟨selector / 4 * 4 + cpu.cpl, some d⟩, eip := offset }
      else none

def returnSegment (m : Bytes) (cpu : Cpu) (selector offset : ℕ) : Option Descriptor :=
  if IsNull selector ∨ rpl selector < cpu.cpl then none
  else
    (descriptorAt m cpu selector).bind fun d =>
      if d.isCode ∧ (if d.conforming then d.dpl ≤ rpl selector else d.dpl = rpl selector) ∧
          d.present ∧ (d.linear offset 1).isSome then
        some d
      else none

/-- What a return to less privilege leaves of a data segment register. -/
def keptData (level : ℕ) (s : Segment) : Segment :=
  match s.descriptor with
  | none => s
  | some d => if ¬ d.conforming ∧ d.dpl < level then ⟨0, none⟩ else s

/-- The end of a far return or of `iret`, when the offset, the selector, and for less privilege
the stack, are popped. -/
def farReturn (m : Bytes) (cpu : Cpu) (selector offset ssSelector esp : ℕ) : Option Cpu :=
  (returnSegment m cpu selector offset).bind fun d =>
    if rpl selector = cpu.cpl then some { cpu with cs := ⟨selector, some d⟩, eip := offset }
    else
      (stackSegment m cpu ssSelector (rpl selector)).map fun stack =>
        { cpu with
          cpl := rpl selector
          cs := ⟨selector, some d⟩
          eip := offset
          ss := ⟨ssSelector, some stack⟩
          esp := esp
          data := fun r => keptData (rpl selector) (cpu.data r) }

def push (m : Bytes) (cpu : Cpu) (v : ℕ) : Option (Bytes × Cpu) :=
  (cpu.ss.descriptor.bind fun d => d.linear (sub32 cpu.esp 4) 4).map fun a =>
    (store32 m a v, { cpu with esp := sub32 cpu.esp 4 })

def pop (m : Bytes) (cpu : Cpu) : Option (ℕ × Cpu) :=
  (cpu.ss.descriptor.bind fun d => d.linear cpu.esp 4).map fun a =>
    (load32 m a, { cpu with esp := u32 (cpu.esp + 4) })

def lret (m : Bytes) (cpu : Cpu) : Option Cpu := do
  let (eip, cpu') ← pop m cpu
  let (cs, cpu') ← pop m cpu'
  if rpl cs = cpu.cpl then farReturn m cpu' cs eip 0 0
  else
    let (esp, cpu') ← pop m cpu'
    let (ss, cpu') ← pop m cpu'
    farReturn m cpu' cs eip ss esp

/-- `iret` pops the flags behind the selector. -/
def iret (m : Bytes) (cpu : Cpu) : Option Cpu := do
  let (eip, cpu') ← pop m cpu
  let (cs, cpu') ← pop m cpu'
  let (eflags, cpu') ← pop m cpu'
  if rpl cs = cpu.cpl then
    (farReturn m cpu' cs eip 0 0).map fun c => { c with eflags := eflags }
  else
    let (esp, cpu') ← pop m cpu'
    let (ss, cpu') ← pop m cpu'
    (farReturn m cpu' cs eip ss esp).map fun c => { c with eflags := eflags }

/-- `lgdt`. -/
def lgdt (m : Bytes) (cpu : Cpu) (a : ℕ) : Cpu :=
  { cpu with gdtLimit := load16 m a, gdtBase := load32 m (a + 2) }

def ltr (m : Bytes) (cpu : Cpu) (selector : ℕ) : Option (Bytes × Cpu) :=
  if IsNull selector then none
  else
    (descriptorAt m cpu selector).bind fun d =>
      if d.access % 32 = 9 ∧ d.present then
        some (store8 m (cpu.gdtBase + selector / 8 * 8 + 5) (UInt8.ofNat (d.access + 2)),
          { cpu with tr := some d })
      else none

inductive Event where
  | loadData (r : DataRegister) (selector : ℕ)
  | loadStack (selector : ℕ)
  | farJump (selector offset : ℕ)
  | farReturn (selector offset ssSelector esp : ℕ)
  | system (selector : ℕ)
  | other

/-- A step that does not fault. A gate or a task that ring 3 may use leads anywhere, and all other
instructions leave the segment registers alone. Memory changes outside the table. -/
inductive Step : Bytes × Cpu → Event → Bytes × Cpu → Prop where
  | loadData {m cpu r selector cpu'} : loadData m cpu r selector = some cpu' →
      Step (m, cpu) (.loadData r selector) (m, cpu')
  | loadStack {m cpu selector cpu'} : loadStack m cpu selector = some cpu' →
      Step (m, cpu) (.loadStack selector) (m, cpu')
  | farJump {m cpu selector offset cpu'} : farJump m cpu selector offset = some cpu' →
      Step (m, cpu) (.farJump selector offset) (m, cpu')
  | farReturn {m cpu selector offset ssSelector esp cpu'} :
      farReturn m cpu selector offset ssSelector esp = some cpu' →
      Step (m, cpu) (.farReturn selector offset ssSelector esp) (m, cpu')
  | system {m cpu selector d t} : ¬ IsNull selector → descriptorAt m cpu selector = some d →
      ¬ d.isSegment → d.present → max cpu.cpl (rpl selector) ≤ d.dpl →
      Step (m, cpu) (.system selector) t
  | other {m cpu m' eip esp eflags} :
      (∀ x, cpu.gdtBase ≤ x → x ≤ cpu.gdtBase + cpu.gdtLimit → m' x = m x) →
      Step (m, cpu) .other (m', { cpu with eip := eip, esp := esp, eflags := eflags })

/-- No present gate or task of the table is ring 3's, and no present code is conforming. -/
def Guarded (table : ℕ → Option Descriptor) : Prop :=
  ∀ selector d, ¬ IsNull selector → table selector = some d → d.present →
    (d.isSegment ∨ d.dpl < 3) ∧ ¬ d.conforming

def Owned (table : ℕ → Option Descriptor) (s : Segment) : Prop :=
  ∀ d, s.descriptor = some d → d.dpl = 3 ∧ d.isSegment ∧ ∃ selector, table selector = some d

/-- Ring 3 has no other segments than its own, and the table is as it was. -/
structure Confined (table : ℕ → Option Descriptor) (m : Bytes) (cpu : Cpu) : Prop where
  cpl : cpu.cpl = 3
  table_eq : ∀ selector, descriptorAt m cpu selector = table selector
  guarded : Guarded table
  cs : Owned table cpu.cs
  ss : Owned table cpu.ss
  data : ∀ r, Owned table (cpu.data r)

section Descriptors

variable {table : ℕ → Option Descriptor} {m m' : Bytes} {cpu cpu' : Cpu} {selector : ℕ}
  {d : Descriptor}

theorem dpl_lt (d : Descriptor) : d.dpl < 4 := Nat.mod_lt _ (by norm_num)

theorem readable_isSegment (h : d.readable) : d.isSegment := by
  simp only [Descriptor.readable, Descriptor.isData, Descriptor.isCode, Bool.or_eq_true,
    Bool.and_eq_true] at h
  rcases h with h | h
  · exact h.1
  · exact h.1.1

theorem isCode_isSegment (h : d.isCode) : d.isSegment := by
  rw [Descriptor.isCode, Bool.and_eq_true] at h
  exact h.1

theorem writable_isSegment (h : d.writable) : d.isSegment := by
  rw [Descriptor.writable, Descriptor.isData, Bool.and_eq_true, Bool.and_eq_true] at h
  exact h.1.1

theorem readDescriptor_congr {a : ℕ} (h : ∀ x, a ≤ x → x < a + 8 → m' x = m x) :
    readDescriptor m' a = readDescriptor m a := by
  have hlow : load16 m' a = load16 m a :=
    load16_congr fun x hx hx' => h x (by omega) (by omega)
  have hhigh : load16 m' (a + 2) = load16 m (a + 2) :=
    load16_congr fun x hx hx' => h x (by omega) (by omega)
  rw [readDescriptor, readDescriptor, hlow, hhigh, h (a + 4) (by omega) (by omega),
    h (a + 5) (by omega) (by omega), h (a + 6) (by omega) (by omega),
    h (a + 7) (by omega) (by omega)]

theorem descriptorAt_congr (hbase : cpu'.gdtBase = cpu.gdtBase)
    (hlimit : cpu'.gdtLimit = cpu.gdtLimit)
    (h : ∀ x, cpu.gdtBase ≤ x → x ≤ cpu.gdtBase + cpu.gdtLimit → m' x = m x) (selector : ℕ) :
    descriptorAt m' cpu' selector = descriptorAt m cpu selector := by
  unfold descriptorAt
  rw [hbase, hlimit]
  by_cases hsel : selector / 4 % 2 = 0 ∧ selector / 8 * 8 + 7 ≤ cpu.gdtLimit
  · rw [if_pos hsel, if_pos hsel,
      readDescriptor_congr fun x hx hx' => h x (by omega) (by omega)]
  · rw [if_neg hsel, if_neg hsel]

theorem owned_null (table : ℕ → Option Descriptor) (selector : ℕ) :
    Owned table ⟨selector, none⟩ :=
  fun _ hd => (by cases hd)

theorem owned_loaded (hat : table selector = some d) (hdpl : d.dpl = 3) (hsegment : d.isSegment)
    (visible : ℕ) : Owned table ⟨visible, some d⟩ := by
  rintro d' hd
  cases hd
  exact ⟨hdpl, hsegment, selector, hat⟩

end Descriptors

section Steps

variable {table : ℕ → Option Descriptor} {m : Bytes} {cpu cpu' : Cpu}
  {selector offset ssSelector esp : ℕ} {r : DataRegister} {s t : Bytes × Cpu} {e : Event}
  {es : List Event}

theorem Confined.setData (h : Confined table m cpu) (r : DataRegister) {s : Segment}
    (hs : Owned table s) : Confined table m { cpu with data := Function.update cpu.data r s } := by
  refine ⟨h.cpl, h.table_eq, h.guarded, h.cs, h.ss, fun q => ?_⟩
  change Owned table (Function.update cpu.data r s q)
  by_cases hq : q = r
  · subst hq
    simpa only [Function.update_self] using hs
  · simpa only [Function.update_of_ne hq] using h.data q

theorem Confined.loadData (h : Confined table m cpu)
    (hr : loadData m cpu r selector = some cpu') : Confined table m cpu' := by
  unfold ProtectedMode.loadData at hr
  by_cases hnull : IsNull selector
  · rw [if_pos hnull, Option.some_inj] at hr
    exact hr ▸ h.setData r (owned_null table selector)
  rw [if_neg hnull, h.table_eq] at hr
  obtain ⟨d, hat, hr⟩ := Option.bind_eq_some_iff.mp hr
  obtain ⟨⟨hreadable, hlevel, hpresent⟩, hr⟩ := Option.ite_none_right_eq_some.mp hr
  have hdpl : d.dpl = 3 := by
    have hlt := dpl_lt d
    have hle := hlevel.resolve_left (h.guarded selector d hnull hat hpresent).2
    rw [h.cpl] at hle
    omega
  exact Option.some_inj.mp hr ▸
    h.setData r (owned_loaded hat hdpl (readable_isSegment hreadable) selector)

theorem Confined.loadStack (h : Confined table m cpu)
    (hr : loadStack m cpu selector = some cpu') : Confined table m cpu' := by
  obtain ⟨d, hstack, rfl⟩ := Option.map_eq_some_iff.mp hr
  obtain ⟨-, hstack⟩ := Option.ite_none_left_eq_some.mp hstack
  obtain ⟨d', hat, hstack⟩ := Option.bind_eq_some_iff.mp hstack
  obtain ⟨⟨-, hwritable, hdpl, -⟩, hd⟩ := Option.ite_none_right_eq_some.mp hstack
  obtain rfl := Option.some_inj.mp hd
  have howned := owned_loaded (h.table_eq selector ▸ hat) (hdpl.trans h.cpl)
    (writable_isSegment hwritable) selector
  exact ⟨h.cpl, h.table_eq, h.guarded, h.cs, howned, h.data⟩

theorem Confined.farJump (h : Confined table m cpu)
    (hr : farJump m cpu selector offset = some cpu') : Confined table m cpu' := by
  obtain ⟨hnull, hr⟩ := Option.ite_none_left_eq_some.mp hr
  rw [h.table_eq] at hr
  obtain ⟨d, hat, hr⟩ := Option.bind_eq_some_iff.mp hr
  obtain ⟨⟨hcode, hlevel, hpresent, -⟩, hr⟩ := Option.ite_none_right_eq_some.mp hr
  rw [if_neg (h.guarded selector d hnull hat hpresent).2] at hlevel
  obtain rfl := Option.some_inj.mp hr
  have howned := owned_loaded hat (hlevel.2.trans h.cpl) (isCode_isSegment hcode)
  exact ⟨h.cpl, h.table_eq, h.guarded, howned _, h.ss, h.data⟩

/-- From ring 3 there is no less privilege to return to. -/
theorem Confined.farReturn (h : Confined table m cpu)
    (hr : farReturn m cpu selector offset ssSelector esp = some cpu') :
    Confined table m cpu' := by
  obtain ⟨d, hreturn, hr⟩ := Option.bind_eq_some_iff.mp hr
  obtain ⟨hnot, hreturn⟩ := Option.ite_none_left_eq_some.mp hreturn
  obtain ⟨hnull, hle⟩ := not_or.mp hnot
  rw [h.table_eq] at hreturn
  obtain ⟨d', hat, hreturn⟩ := Option.bind_eq_some_iff.mp hreturn
  obtain ⟨⟨hcode, hlevel, hpresent, -⟩, hd⟩ := Option.ite_none_right_eq_some.mp hreturn
  obtain rfl := Option.some_inj.mp hd
  have hlt : rpl selector < 4 := Nat.mod_lt _ (by norm_num)
  have hrpl : rpl selector = 3 := by
    have hcpl := h.cpl
    omega
  rw [if_neg (h.guarded selector d' hnull hat hpresent).2, hrpl] at hlevel
  rw [if_pos (hrpl.trans h.cpl.symm), Option.some_inj] at hr
  subst hr
  have howned := owned_loaded hat hlevel (isCode_isSegment hcode) selector
  exact ⟨h.cpl, h.table_eq, h.guarded, howned, h.ss, h.data⟩

theorem Confined.step (h : Confined table s.1 s.2) (hstep : Step s e t) :
    Confined table t.1 t.2 := by
  cases hstep with
  | loadData hr => exact h.loadData hr
  | loadStack hr => exact h.loadStack hr
  | farJump hr => exact h.farJump hr
  | farReturn hr => exact h.farReturn hr
  | @system m cpu selector d _ hnull hat hsystem hpresent hlevel =>
    rw [h.table_eq] at hat
    have hlow := (h.guarded selector d hnull hat hpresent).1.resolve_left hsystem
    have hcpl : cpu.cpl = 3 := h.cpl
    omega
  | @other m cpu m' eip esp eflags hm =>
    have ht : ∀ selector, descriptorAt m' { cpu with eip := eip, esp := esp, eflags := eflags }
        selector = descriptorAt m cpu selector := descriptorAt_congr rfl rfl hm
    exact ⟨h.cpl, fun selector => (ht selector).trans (h.table_eq selector), h.guarded, h.cs, h.ss,
      h.data⟩

/-- Whatever ring 3 loads and wherever it jumps, it stays in ring 3 with segments of its own. -/
theorem Confined.run (h : Confined table s.1 s.2) (hrun : Run Step s es t) :
    Confined table t.1 t.2 :=
  hrun.invariant (fun s => Confined table s.1 s.2) (fun _ _ _ hs hstep => hs.step hstep) h

end Steps

end ProtectedMode
