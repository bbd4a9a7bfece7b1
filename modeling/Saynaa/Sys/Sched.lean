import Saynaa.Sys.Proc

/-!
# The round-robin scheduler (`kernel/src/sys/sched_robin.c`)

The nodes of the ring and the process records are two heaps indexed by address. Reading or
writing an address that holds nothing (`NULL`, or a node after `kfree`) is a fault, and so
is running out of `fuel`, which every loop takes: both give `none`. The addresses that
`kmalloc` returns are arguments. Log messages are left out.
-/

namespace Saynaa

/-- `proc_node_t`. -/
structure ProcNode where
  process : ℕ
  next : ℕ

/-- `sched_robin_t` and the two heaps it points into. -/
structure SchedRobin where
  node : ℕ → Option ProcNode
  proc : ℕ → Option Process
  processes : ℕ

namespace SchedRobin

def nextOf (s : SchedRobin) (a : ℕ) : Option ℕ := (s.node a).map ProcNode.next

def processOf (s : SchedRobin) (a : ℕ) : Option ℕ := (s.node a).map ProcNode.process

/-- `a->next = v`. -/
def setNext (s : SchedRobin) (a v : ℕ) : Option SchedRobin :=
  (s.node a).map fun n => { s with node := Function.update s.node a (some { n with next := v }) }

/-- `kfree(a)`. -/
def kfreeNode (s : SchedRobin) (a : ℕ) : SchedRobin :=
  { s with node := Function.update s.node a none }

/-- `p->sleep_ticks = t`. -/
def setSleep (s : SchedRobin) (p t : ℕ) : SchedRobin :=
  { s with proc := Function.update s.proc p ((s.proc p).map fun r => { r with sleepTicks := t }) }

end SchedRobin

/-- `proc_valid`. -/
def Process.valid (r : Process) : Bool :=
  r.directory ≠ 0 ∧ r.savedKernelStack ≠ 0 ∧ r.magic = 0xC0FEBABE ∧ r.magic2 = 0xC0FEBABE

def procValid (s : SchedRobin) (p : ℕ) : Option Bool :=
  if p = 0 then some false else (s.proc p).map Process.valid

/-- `while (tail->next != head) tail = tail->next;` -/
def findTail (s : SchedRobin) (head : ℕ) : ℕ → ℕ → Option ℕ
  | 0, _ => none
  | fuel + 1, tail => do
    let n ← s.nextOf tail
    if n ≠ head then findTail s head fuel n else return tail

/-- The first loop of `sched_robin_prune`: drop invalid head nodes. -/
def pruneHead : ℕ → SchedRobin → Option SchedRobin
  | 0, _ => none
  | fuel + 1, s =>
    if s.processes = 0 then some s
    else do
      let head := s.processes
      if ← procValid s (← s.processOf head) then return s
      let next ← s.nextOf head
      if next = head then return { s.kfreeNode head with processes := 0 }
      let tail ← findTail s head (fuel + 1) head
      let s ← s.setNext tail next
      pruneHead fuel ({ s with processes := next }.kfreeNode head)

/-- The second loop of `sched_robin_prune`: remove the other invalid nodes. -/
def pruneRest : ℕ → SchedRobin → ℕ → ℕ → Option SchedRobin
  | 0, _, _, _ => none
  | fuel + 1, s, prev, cur =>
    if cur = s.processes then some s
    else do
      let next ← s.nextOf cur
      if ← procValid s (← s.processOf cur) then pruneRest fuel s cur next
      else
        let s := (← s.setNext prev next).kfreeNode cur
        pruneRest fuel s prev (← s.nextOf prev)

def schedRobinPrune (fuel : ℕ) (s : SchedRobin) : Option SchedRobin := do
  let s ← pruneHead fuel s
  if s.processes = 0 then return s
  pruneRest fuel s s.processes (← s.nextOf s.processes)

/-- The process at the head of the ring, or `NULL`. -/
def schedRobinGetCurrent (fuel : ℕ) (s : SchedRobin) : Option (ℕ × SchedRobin) := do
  let s ← schedRobinPrune fuel s
  if s.processes ≠ 0 then return (← s.processOf s.processes, s) else return (0, s)

/-- `sched_robin_add` of process `p`; `new` is the address that `kmalloc` returns. -/
def schedRobinAdd (fuel : ℕ) (s : SchedRobin) (p new : ℕ) : Option SchedRobin := do
  if p = 0 then return s
  let r ← s.proc p
  if r.directory = 0 ∨ r.savedKernelStack = 0 then return s
  let s ← schedRobinPrune fuel s
  if new = 0 then none
  else if s.processes = 0 then
    return { s with node := Function.update s.node new (some ⟨p, new⟩), processes := new }
  else
    let next ← s.nextOf s.processes
    let s ← s.setNext s.processes new
    return { s with node := Function.update s.node new (some ⟨p, next⟩) }

/-- The `do … while` loop of `sched_robin_exists`. -/
def existsLoop (s : SchedRobin) (pid start : ℕ) : ℕ → ℕ → Option Bool
  | 0, _ => none
  | fuel + 1, a => do
    let p ← s.processOf a
    let found ← if p = 0 then some false else (s.proc p).map fun r => decide (r.pid = pid)
    if found then return true
    let a ← s.nextOf a
    if a ≠ 0 ∧ a ≠ start then existsLoop s pid start fuel a else return false

def schedRobinExists (fuel : ℕ) (s : SchedRobin) (pid : ℕ) : Option Bool :=
  if s.processes = 0 then some false else existsLoop s pid s.processes fuel s.processes

/-- The election loop of `sched_robin_next`; `true` is the return without a switch. -/
def electLoop : ℕ → SchedRobin → ℕ → Option (Bool × SchedRobin)
  | 0, _, _ => none
  | fuel + 1, s, p => do
    let next ← s.nextOf p
    let proc ← s.processOf next
    let r ← s.proc proc
    if r.sleepTicks > 0 then
      let s := s.setSleep proc (r.sleepTicks - 1)
      if next ≠ s.processes then electLoop fuel s next else return (false, s)
    else if next = s.processes then return (true, s)
    else
      let moved ← s.nextOf s.processes
      if next = moved then return (false, s)
      -- put the elected node between the current one and the skipped ones
      let s ← s.setNext p (← s.nextOf next)
      let s ← s.setNext next moved
      let s ← s.setNext s.processes next
      return (false, s)

/-- The elected process, or `NULL` if there is none. -/
def schedRobinNext (fuel : ℕ) (s : SchedRobin) : Option (ℕ × SchedRobin) := do
  let s ← schedRobinPrune fuel s
  if s.processes = 0 then return (0, s)
  let (stay, s) ← electLoop fuel s s.processes
  if stay then return (← s.processOf s.processes, s)
  let s := { s with processes := ← s.nextOf s.processes }
  return (← s.processOf s.processes, s)

/-- The search of `sched_robin_exit` for the node in front of `process`'s. -/
def findPrev (s : SchedRobin) (process start : ℕ) : ℕ → ℕ → Option (Option ℕ)
  | 0, _ => none
  | fuel + 1, p => do
    let next ← s.nextOf p
    if (← s.processOf next) ≠ process then
      if next = start then return none else findPrev s process start fuel next
    else return some p

def schedRobinExit (fuel : ℕ) (s : SchedRobin) (process : ℕ) : Option SchedRobin :=
  if s.processes = 0 then some s
  else do
    let next ← s.nextOf s.processes
    if s.processes = next then return { s.kfreeNode s.processes with processes := 0 }
    match ← findPrev s process s.processes fuel s.processes with
    | none => return s
    | some p =>
      let toRemove ← s.nextOf p
      let s ← s.setNext p (← s.nextOf toRemove)
      return { s with processes := p }.kfreeNode toRemove

/-- `sched_robin()`, over given process records: no node, no process. -/
def schedRobin (proc : ℕ → Option Process) : SchedRobin := ⟨fun _ => none, proc, 0⟩

end Saynaa
