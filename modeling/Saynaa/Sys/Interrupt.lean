import Saynaa.Sys.Schedule

/-!
# Interrupts and context switches

From `kernel/src/cpu/8259_pic.c`, `isr.c`, `interrupt.asm` and `fpu.c`, and from
`kernel/src/sys/proc.c` and `proc.asm`. The stubs of `interrupt.asm` disable interrupts and
`iret` enables them, so interrupts are delivered in user mode only. `isr_irq_handler` calls
the handler and then `pic8259_eoi`, for the system call 48 as well. Only the handlers of
the timer (32) and of system calls call the scheduler.

A process that is switched away leaves on its kernel stack the way back through
`proc_schedule` into its handler. The stack that `proc_run_code` builds returns into
`irq_handler_end` instead, which goes to user mode directly. A device handler changes
nothing of what is modelled here. `F` is the type of the contents of the x87 registers,
which the kernel code does not touch: nothing calls `fpu_kernel_enter` or `fpu_kernel_exit`.
-/

namespace Saynaa

/-- The in-service registers of the two 8259s. -/
structure Pic where
  master : BitVec 8
  slave : BitVec 8

/-- An `8259` that is written `PIC_EOI` ends the service of highest priority, its lowest bit. -/
def endService (isr : BitVec 8) : BitVec 8 := isr &&& (isr - 1)

namespace Pic

/-- Delivery of `IRQ` `n`, that of the slave through line 2 of the master. -/
def deliver (p : Pic) (n : ℕ) : Pic :=
  if n < 8 then { p with master := p.master ||| BitVec.twoPow 8 n }
  else ⟨p.master ||| BitVec.twoPow 8 2, p.slave ||| BitVec.twoPow 8 (n - 8)⟩

def inService (p : Pic) (n : ℕ) : Bool :=
  if n < 8 then p.master.getLsbD n else p.slave.getLsbD (n - 8)

/-- `pic8259_eoi`. -/
def pic8259Eoi (p : Pic) (irq : ℕ) : Pic :=
  ⟨endService p.master, if irq ≥ 0x28 then endService p.slave else p.slave⟩

end Pic

/-- The code that runs: a process in user mode, the handler of interrupt `intNo` on the
kernel stack of a process, or `infinite_loop()` with interrupts disabled. -/
inductive Mode where
  | user
  | handler (intNo : ℕ)
  | halted
  deriving DecidableEq

/-- Where the return from `proc_switch_process` on a saved kernel stack leads. -/
inductive SavedStack where
  | irqHandlerEnd
  | handler (intNo : ℕ)
  deriving DecidableEq

/-- `irq_handler_end` is an `iret` to user mode, a handler is still to return. -/
def SavedStack.mode : SavedStack → Mode
  | irqHandlerEnd => .user
  | handler intNo => .handler intNo

/-- The processor, its interrupt controllers and the scheduler; `stack` and `fpuRegisters`
are parts of `process_t`. -/
structure Cpu (F : Type) where
  kernel : Kernel
  pic : Pic
  mode : Mode
  stack : ℕ → SavedStack
  fpu : F
  kernelFpu : F
  fpuRegisters : ℕ → F

/-- What happens next: an interrupt line, `int 48`, a step of its handler, the end of a
handler, or an instruction of a process that leaves `v` in the x87 registers. -/
inductive CpuAct (F : Type) where
  | irq (n : ℕ)
  | syscall
  | exec (p new : ℕ) (r : Process)
  | yield
  | sleep (ms : ℕ)
  | exit
  | waitpid (pid : ℕ)
  | iret
  | x87 (v : F)

variable {F : Type}

/-- The call of the scheduler in an action. -/
def CpuAct.schedule (fuel : ℕ) (k : Kernel) : CpuAct F → Option Kernel
  | .irq 0 => timerCallback fuel k
  | .yield => syscallYield fuel k
  | .sleep ms => procSleep fuel k ms
  | .exit => procExit fuel k
  | .waitpid pid => syscallWaitpid fuel k pid
  | _ => some k

namespace Cpu

/-- `fpu_switch`. -/
def fpuSwitch (c : Cpu F) (prev next : ℕ) : Cpu F :=
  let regs := Function.update c.fpuRegisters prev c.kernelFpu
  { c with fpuRegisters := regs, kernelFpu := regs next }

/-- `proc_switch_process(next)` in the handler of `intNo`, running for `prev`. -/
def procSwitchProcess (c : Cpu F) (intNo prev next : ℕ) : Cpu F :=
  let stack := Function.update c.stack prev (.handler intNo)
  { c with stack := stack, mode := (stack next).mode }

/-- The rest of `proc_schedule` in the handler of `intNo`, after an election that led to `k`. -/
def switch (c : Cpu F) (intNo : ℕ) (k : Kernel) : Option (Cpu F) :=
  let prev := c.kernel.current
  let c := { c with kernel := k, mode := .handler intNo }
  if k.current = 0 ∨ k.current = prev then some c
  -- `fpu_switch` dereferences `current_process`
  else if prev = 0 then none
  else some ((c.fpuSwitch prev k.current).procSwitchProcess intNo prev k.current)

/-- A step of the handler of `int 48` that calls the scheduler. -/
def inSyscall (c : Cpu F) (fuel : ℕ) (a : CpuAct F) : Option (Cpu F) :=
  if c.mode = .handler 48 then (a.schedule fuel c.kernel).bind (c.switch 48) else none

/-- The end of `proc_run_code`: process `p`, with record `r`, is ready to run. -/
def addProcess [Zero F] (c : Cpu F) (fuel p new : ℕ) (r : Process) : Option (Cpu F) := do
  let sched := { c.kernel.sched with proc := Function.update c.kernel.sched.proc p (some r) }
  let sched ← schedRobinAdd fuel sched p new
  return { c with
    kernel := { c.kernel with sched := sched }
    stack := Function.update c.stack p .irqHandlerEnd
    fpuRegisters := Function.update c.fpuRegisters p 0 }

def step [Zero F] (fuel : ℕ) (c : Cpu F) (a : CpuAct F) : Option (Cpu F) :=
  match a with
  | .irq n =>
    if c.mode = .user ∧ n < 16 ∧ c.pic.inService n = false then
      (a.schedule fuel c.kernel).bind ({ c with pic := c.pic.deliver n }.switch (32 + n))
    else none
  | .syscall => if c.mode = .user then some { c with mode := .handler 48 } else none
  | .exec p new r =>
    -- `kmalloc` gives an address that holds no other process
    if c.mode = .handler 48 ∧ p ≠ 0 ∧ c.kernel.sched.proc p = none then c.addProcess fuel p new r else none
  | .yield | .sleep _ | .waitpid _ => c.inSyscall fuel a
  | .exit => do
    let c ← c.inSyscall fuel a
    return if c.kernel.current = 0 then { c with mode := .halted } else c
  | .iret =>
    match c.mode with
    | .handler intNo => some { c with pic := c.pic.pic8259Eoi intNo, mode := .user }
    | _ => none
  | .x87 v => if c.mode = .user then some { c with fpu := v } else none

end Cpu

end Saynaa
