import Saynaa.Sys.Sched

/-!
# Scheduler calls (`kernel/src/sys/proc.c`, `kernel/src/sys/syscall.c`)

Timer ticks and the system calls that give the processor away. The two history variables
of `Kernel` record every call of `sched_robin_next`: `elections` has the process that was
returned, the scheduler in which the call was made and the timer tick of the call. A
context switch is the assignment to `current_process`; `NULL` is 0.
-/

namespace Saynaa

def timerFreq : ℕ := 100

/-- One call of `sched_robin_next`. -/
structure Election where
  process : ℕ
  sched : SchedRobin
  tick : ℕ

/-- The scheduler, `current_process` and `current_tick`. -/
structure Kernel where
  sched : SchedRobin
  current : ℕ
  tick : ℕ
  elections : List Election

def procSchedule (fuel : ℕ) (k : Kernel) : Option Kernel := do
  let (next, sched) ← schedRobinNext fuel k.sched
  let k := { k with sched := sched, elections := k.elections ++ [⟨next, k.sched, k.tick⟩] }
  if next = 0 then return { k with current := 0 }
  if next = k.current then return k
  return { k with current := next }

/-- `timer_callback`, which calls `proc_timer_callback`. -/
def timerCallback (fuel : ℕ) (k : Kernel) : Option Kernel :=
  procSchedule fuel { k with tick := k.tick + 1 }

/-- Milliseconds in scheduler ticks, in `uint32_t` arithmetic. -/
def sleepTicks (ms : ℕ) : ℕ :=
  if ms > 0 then
    let ticks := add32 (ms * timerFreq % 2 ^ 32) 999 / 1000
    if ticks = 0 then 1 else ticks
  else 0

def procSleep (fuel : ℕ) (k : Kernel) (ms : ℕ) : Option Kernel :=
  if k.current = 0 then some k
  else procSchedule fuel { k with sched := k.sched.setSleep k.current (sleepTicks ms) }

/-- `proc_exit`; `current_process` is dereferenced without a check. -/
def procExit (fuel : ℕ) (k : Kernel) : Option Kernel :=
  if k.current = 0 then none
  else do
    let sched ← schedRobinExit fuel k.sched k.current
    procSchedule fuel { k with sched := sched }

/-- One test of `while (sched_exists(pid)) proc_schedule();` in `syscall_waitpid`. -/
def syscallWaitpid (fuel : ℕ) (k : Kernel) (pid : ℕ) : Option Kernel := do
  if ← schedRobinExists fuel k.sched pid then procSchedule fuel k else return k

def syscallYield (fuel : ℕ) (k : Kernel) : Option Kernel := procSchedule fuel k

end Saynaa
