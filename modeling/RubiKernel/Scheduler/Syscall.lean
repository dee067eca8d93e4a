import RubiKernel.Scheduler.Context

/-! `lib/asm_lib.asm` and `DT/int_handle.asm`: a system call, instruction by instruction, and
what of the caller's registers is left after it. -/

namespace RubiKernel.Scheduler

open Lts Memory

structure Machine where
  mem : Memory
  cpu : Cpu

def Machine.esp (m : Machine) : Word := m.cpu.gpRegisters.esp

def Machine.withEsp (m : Machine) (esp : Word) : Machine :=
  { m with cpu := { m.cpu with gpRegisters := { m.cpu.gpRegisters with esp := esp } } }

def Machine.push (m : Machine) (w : Word) : Machine :=
  let r := Scheduler.push (m.mem, m.esp) w
  { m.withEsp r.2 with mem := r.1 }

def Machine.pushad (m : Machine) : Machine :=
  let r := m.cpu.gpRegisters
  let m := m.push r.eax
  let m := m.push r.ecx
  let m := m.push r.edx
  let m := m.push r.ebx
  let m := m.push r.esp
  let m := m.push r.ebp
  let m := m.push r.esi
  m.push r.edi

/-- The processor enters an interrupt gate: it pushes its frame, with `pad` above the
selector, and clears the trap and the interrupt flag. -/
def Machine.interrupt (m : Machine) (next : Word) (pad : BitVec 16) : Machine :=
  let m' := ((m.push m.cpu.eflags).push (pad ++ m.cpu.cs)).push next
  { m' with cpu := { m'.cpu with eflags := m'.cpu.eflags &&& ~~~0x300 } }

def Machine.cld (m : Machine) : Machine :=
  { m with cpu := { m.cpu with eflags := m.cpu.eflags &&& ~~~0x400 } }

def Machine.ret (m : Machine) : Machine :=
  let m' := m.withEsp (m.esp + 4)
  { m' with cpu := { m'.cpu with eip := read32 m.mem m.esp } }

def Machine.iret (m : Machine) : Machine :=
  let m' := m.withEsp (m.esp + 12)
  { m' with
    cpu :=
      { m'.cpu with
        eip := read32 m.mem m.esp
        cs := read16 m.mem (m.esp + 4)
        eflags := read32 m.mem (m.esp + 8) } }

inductive Reg
  | eax
  | ebx
  | ecx
  | edx

def Reg.set (r : GpRegisters) (w : Word) : Reg → GpRegisters
  | eax => { r with eax := w }
  | ebx => { r with ebx := w }
  | ecx => { r with ecx := w }
  | edx => { r with edx := w }

def Machine.mov (m : Machine) (reg : Reg) (offset : Word) : Machine :=
  { m with
    cpu :=
      { m.cpu with
        gpRegisters := reg.set m.cpu.gpRegisters (read32 m.mem (m.esp + offset)) } }

/-- The instructions of the two stubs; `next` is the address of the one that follows. -/
inductive Instr
  | mov (reg : Reg) (offset : Word)
  | int (next : Word)
  | ret
  | pushad
  | cld
  | call (next : Word)
  | addEsp (n : Word)
  | iret

/-- What an instruction does, where `handler` serves the interrupt and `callee` is called. -/
inductive Instr.Step (callee handler : Machine → Machine → Prop) : Instr → Machine → Machine → Prop
  | mov {m : Machine} {reg : Reg} {offset : Word} :
    Step callee handler (.mov reg offset) m (m.mov reg offset)
  | int {m m' : Machine} {next : Word} (pad : BitVec 16) (h : handler (m.interrupt next pad) m')
      (hback : m'.cpu.eip = next) : Step callee handler (.int next) m m'
  | ret {m : Machine} : Step callee handler .ret m m.ret
  | pushad {m : Machine} : Step callee handler .pushad m m.pushad
  | cld {m : Machine} : Step callee handler .cld m m.cld
  | call {m m' : Machine} {next : Word} (h : callee (m.push next) m')
      (hback : m'.cpu.eip = next) : Step callee handler (.call next) m m'
  | addEsp {m : Machine} {n : Word} :
    Step callee handler (.addEsp n) m (m.withEsp (m.esp + n))
  | iret {m : Machine} : Step callee handler .iret m m.iret

def Steps (callee handler : Machine → Machine → Prop) : List Instr → Machine → Machine → Prop
  | [], m, m' => m' = m
  | i :: is, m, m' => ∃ m₁, i.Step callee handler m m₁ ∧ Steps callee handler is m₁ m'

def fsyscall (next : Word) : List Instr :=
  [.mov .eax 4, .mov .ebx 8, .mov .ecx 12, .mov .edx 16, .int next, .ret]

def intSyscall (next : Word) : List Instr :=
  [.pushad, .cld, .call next, .addEsp 32, .iret]

/-- How a task goes on that executes `int 0x20` or is interrupted by the timer:
`sched_schedule` returns, or it switches to others and later back. -/
inductive GoesOn (cpu : Cpu) : Cpu → Prop
  | returned (mem : Memory) (pad : BitVec 16) :
    GoesOn cpu (popadIret (intTimer mem cpu pad).1 (intTimer mem cpu pad).2 cpu.cr3)
  | switched {s s₁ : Sys} {mem : Memory} {pad : BitVec 16} {tr : List (Event × Sys)} {cpu' : Cpu}
      (h : RoundTrip s mem cpu pad s₁ tr) (hback : (final s₁ tr).resumed = some cpu') :
    GoesOn cpu cpu'

/-- The registers that a function of C leaves as they were. -/
def calleeSaved (r : GpRegisters) : Word × Word × Word × Word × Word :=
  (r.ebx, r.esi, r.edi, r.ebp, r.esp)

section

/-! `cintSyscall m is m'`: the compiled `cint_syscall` goes from its first instruction in `m`
to the return in `m'`, and at each of the interrupts `is` from the first registers to the
second. -/

variable (cintSyscall : Machine → List (Cpu × Cpu) → Machine → Prop)

/-- Where the interrupts leave the registers alone, `cint_syscall` keeps to the convention. -/
def FollowsConvention : Prop :=
  ∀ (m : Machine) next is m', cintSyscall (m.push next) is m' →
    (∀ i ∈ is, i.2.gpRegisters = i.1.gpRegisters) →
      calleeSaved m'.cpu.gpRegisters = calleeSaved m.cpu.gpRegisters

/-- A run of `cint_syscall` among the other tasks. -/
def CintSyscall (m m' : Machine) : Prop :=
  ∃ is, cintSyscall m is m' ∧ ∀ i ∈ is, GoesOn i.1 i.2

/-- `int_syscall`, with nothing else to call or to serve. -/
def IntSyscall (next : Word) (m m' : Machine) : Prop :=
  Steps (CintSyscall cintSyscall) (fun _ _ => False) (intSyscall next) m m'

def Fsyscall (next nextHandler : Word) (m m' : Machine) : Prop :=
  Steps (fun _ _ => False) (IntSyscall cintSyscall nextHandler) (fsyscall next) m m'

/-- A task calls `fsyscall` with its arguments on the stack. -/
def SystemCall (ret next nextHandler : Word) (m m' : Machine) : Prop :=
  (Instr.call ret).Step (Fsyscall cintSyscall next nextHandler) (fun _ _ => False) m m'

end

def Machine.id (m : Machine) : Word := read32 m.mem m.esp

def Machine.arg1 (m : Machine) : Word := read32 m.mem (m.esp + 4)

variable {m m' : Machine} {w next nextHandler ret n : Word} {pad : BitVec 16} {cpu cpu' : Cpu}
  {cintSyscall : Machine → List (Cpu × Cpu) → Machine → Prop}

@[simp] theorem calleeSaved_withEsp :
    calleeSaved (m.withEsp n).cpu.gpRegisters =
      calleeSaved { m.cpu.gpRegisters with esp := n } := rfl

@[simp] theorem push_gpRegisters :
    (m.push w).cpu.gpRegisters = { m.cpu.gpRegisters with esp := m.esp - 4 } := rfl

@[simp] theorem push_esp : (m.push w).esp = m.esp - 4 := rfl

@[simp] theorem pushad_gpRegisters :
    m.pushad.cpu.gpRegisters = { m.cpu.gpRegisters with esp := m.esp - 32 } := by
  simp [Machine.pushad, sub_eq_add_neg, BitVec.add_assoc]

@[simp] theorem interrupt_gpRegisters :
    (m.interrupt next pad).cpu.gpRegisters = { m.cpu.gpRegisters with esp := m.esp - 12 } := by
  simp [Machine.interrupt, sub_eq_add_neg, BitVec.add_assoc]

theorem GoesOn.gpRegisters_eq (h : GoesOn cpu cpu') : cpu'.gpRegisters = cpu.gpRegisters := by
  cases h with
  | returned mem pad => rw [popadIret_intTimer]
  | switched h hback =>
    obtain ⟨cr3, hresumed⟩ := h.resumed
    obtain rfl := Option.some.inj (hresumed.symm.trans hback)
    rfl

theorem Instr.Step.handled {callee handler : Machine → Machine → Prop}
    (h : (Instr.int next).Step callee handler m m') :
    (∃ pad, handler (m.interrupt next pad) m') ∧ m'.cpu.eip = next := by
  cases h with
  | int pad h hback => exact ⟨⟨pad, h⟩, hback⟩

theorem Instr.Step.called {callee handler : Machine → Machine → Prop}
    (h : (Instr.call next).Step callee handler m m') :
    callee (m.push next) m' ∧ m'.cpu.eip = next := by
  cases h with
  | call h hback => exact ⟨h, hback⟩

theorem calleeSaved_shift {r r' : GpRegisters} (h : calleeSaved r' = calleeSaved r) (n : Word) :
    calleeSaved { r' with esp := r'.esp + n } = calleeSaved { r with esp := r.esp + n } := by
  simp only [calleeSaved, Prod.mk.injEq] at h ⊢
  obtain ⟨hebx, hesi, hedi, hebp, hesp⟩ := h
  exact ⟨hebx, hesi, hedi, hebp, by rw [hesp]⟩

/-- `int_syscall` drops what `pushad` has saved, and all the same gives the registers back. -/
theorem IntSyscall.keeps (hconv : FollowsConvention cintSyscall)
    (h : IntSyscall cintSyscall nextHandler m m') :
    calleeSaved m'.cpu.gpRegisters =
      calleeSaved { m.cpu.gpRegisters with esp := m.esp + 12 } := by
  obtain ⟨_, ⟨⟩, _, ⟨⟩, m₁, hcall, _, ⟨⟩, _, ⟨⟩, rfl⟩ := h
  obtain ⟨is, hcint, hgoes⟩ := hcall.called.1
  have hcalled := hconv _ _ _ _ hcint fun i hi => (hgoes i hi).gpRegisters_eq
  calc calleeSaved (m₁.withEsp (m₁.esp + 32)).iret.cpu.gpRegisters
      = calleeSaved { m₁.cpu.gpRegisters with esp := m₁.esp + 44 } := by
        simp [Machine.iret, Machine.withEsp, Machine.esp, BitVec.add_assoc]
    _ = calleeSaved { m.pushad.cpu.gpRegisters with esp := m.pushad.esp + 44 } :=
        calleeSaved_shift hcalled 44
    _ = calleeSaved { m.cpu.gpRegisters with esp := m.esp + 12 } := by
        simp [Machine.esp, sub_eq_add_neg, BitVec.add_assoc]

theorem Fsyscall.registers (hconv : FollowsConvention cintSyscall)
    (h : Fsyscall cintSyscall next nextHandler m m') :
    calleeSaved m'.cpu.gpRegisters =
      calleeSaved
        { m.cpu.gpRegisters with ebx := read32 m.mem (m.esp + 8), esp := m.esp + 4 } := by
  obtain ⟨_, ⟨⟩, _, ⟨⟩, _, ⟨⟩, _, ⟨⟩, m₁, hint, _, ⟨⟩, rfl⟩ := h
  obtain ⟨pad, hhandler⟩ := hint.handled.1
  have hkept := hhandler.keeps hconv
  rw [interrupt_gpRegisters] at hkept
  refine (calleeSaved_shift hkept 4).trans ?_
  simp [calleeSaved, Machine.esp, Machine.mov, Reg.set, sub_eq_add_neg, BitVec.add_assoc]

theorem SystemCall.registers (hconv : FollowsConvention cintSyscall)
    (hcall : SystemCall cintSyscall ret next nextHandler m m') :
    calleeSaved m'.cpu.gpRegisters = calleeSaved { m.cpu.gpRegisters with ebx := m.arg1 } := by
  have harg : read32 (m.push ret).mem ((m.push ret).esp + 8) = m.arg1 := by
    simp (disch := decide) only [Machine.push, Scheduler.push, Machine.arg1, Machine.esp,
      Machine.withEsp, sub_eq_add_neg, BitVec.add_assoc, BitVec.reduceNeg, BitVec.reduceAdd,
      read32_write32_of_apart]
    rfl
  rw [hcall.called.1.registers hconv, harg]
  simp [Machine.esp, sub_eq_add_neg, BitVec.add_assoc]

/-- A system call, also one in which other tasks run, keeps the registers that a function of C
has to keep exactly when `ebx` held the first argument already. -/
theorem fsyscall_keeps_iff (hconv : FollowsConvention cintSyscall)
    (hcall : SystemCall cintSyscall ret next nextHandler m m') :
    calleeSaved m'.cpu.gpRegisters = calleeSaved m.cpu.gpRegisters ↔
      m.cpu.gpRegisters.ebx = m.arg1 := by
  rw [hcall.registers hconv]
  simp [calleeSaved, eq_comm]

def syscallExit : Word := 0x1

def syscallClose : Word := 0x6

/-- `cint_syscall` when it is asked to close a file: it returns 0, with interrupts enabled. -/
def cintClose (m : Machine) (is : List (Cpu × Cpu)) (m' : Machine) : Prop :=
  let r := m.ret
  m.cpu.gpRegisters.eax = syscallClose ∧ is = [] ∧
    m' =
      { r with
        cpu :=
          { r.cpu with
            gpRegisters := { r.cpu.gpRegisters with eax := 0 }
            eflags := r.cpu.eflags ||| 0x200 } }

theorem cintClose_follows : FollowsConvention cintClose := by
  rintro m next is m' ⟨-, -, rfl⟩ -
  simp [calleeSaved, Machine.ret, Machine.withEsp, Machine.esp]

theorem cintClose_returns (ret next nextHandler : Word) (hid : m.id = syscallClose) :
    ∃ m', SystemCall cintClose ret next nextHandler m m' := by
  rw [Machine.id, Machine.esp, ← BitVec.add_zero m.cpu.gpRegisters.esp] at hid
  refine ⟨_, .call ⟨_, .mov, _, .mov, _, .mov, _, .mov, _, .int 0 ⟨_, .pushad, _, .cld, _, .call
    ⟨[], ⟨?_, rfl, rfl⟩, by simp⟩ ?_, _, .addEsp, _, .iret, rfl⟩ ?_, _, .ret, rfl⟩ ?_⟩
  all_goals
    simp (disch := decide) only [Machine.cld, Machine.iret, Machine.ret, Machine.interrupt,
      Machine.pushad, Machine.mov, Machine.push, Machine.withEsp, Machine.esp, Scheduler.push,
      Reg.set, sub_eq_add_neg, BitVec.add_assoc, BitVec.reduceNeg, BitVec.reduceAdd,
      read32_write32, read32_write32_of_apart, hid]

def closing (fd : Word) : Machine where
  mem := write32 (write32 (fun _ => 0) 0xC1012F04 fd) 0xC1012F00 syscallClose
  cpu := working 0x202

theorem closing_id (fd : Word) : (closing fd).id = syscallClose := read32_write32 ..

theorem closing_arg1 (fd : Word) : (closing fd).arg1 = fd :=
  (read32_write32_of_apart _ 0xC1012F00 syscallClose (x := 0) (y := 4) (by decide)).trans
    (read32_write32 ..)

theorem fsyscall_keeps_iff_example : ∃ m', SystemCall cintClose 1 2 3 (closing 3) m' ∧
    calleeSaved m'.cpu.gpRegisters = calleeSaved (working 0x202).gpRegisters := by
  obtain ⟨m', hcall⟩ := cintClose_returns 1 2 3 (closing_id 3)
  exact ⟨m', hcall, (fsyscall_keeps_iff cintClose_follows hcall).mpr (closing_arg1 3).symm⟩

/-- `fsyscall(SYSCALL_CLOSE, 4, 0, 0)` loses the 3. -/
theorem fsyscall_loses_ebx : ¬∀ cintSyscall ret next nextHandler m m',
    FollowsConvention cintSyscall → m.id ≠ syscallExit →
    SystemCall cintSyscall ret next nextHandler m m' →
    calleeSaved m'.cpu.gpRegisters = calleeSaved m.cpu.gpRegisters := by
  intro hall
  obtain ⟨m', hcall⟩ := cintClose_returns 1 2 3 (closing_id 4)
  have hexit : (closing 4).id ≠ syscallExit := by
    rw [closing_id]
    decide
  have hkept := hall _ _ _ _ _ _ cintClose_follows hexit hcall
  rw [hcall.registers cintClose_follows, closing_arg1] at hkept
  exact absurd (congrArg Prod.fst hkept) (by decide)

end RubiKernel.Scheduler
