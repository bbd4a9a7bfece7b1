import Saynaa.Mem.Malloc
import Saynaa.Sys.Elf
import Saynaa.Sys.Sched

/-!
# Running a program (`proc_run_code` in `kernel/src/sys/proc.c`)

`procRunCode` builds the address space of a new process in a fresh directory, which it switches
to and back from. `live` is a history variable: the pointers that the kernel heap gave out and did
not take back. What the buffers and list nodes of the saved arguments hold is kept beside their
addresses; the new kernel stack, the file table, the working directory and the output buffer of
the process are left out, and so is what pruning the ring gives back to the heap.

`none` is a kernel abort, a page fault, or running out of fuel in the heap or the ring.
-/

namespace Saynaa

open Lib

def procStackPages : ℕ := 4
def procKernelStackPages : ℕ := 1
def kernelBaseVirt : ℕ := 0xC0000000

/-- `sizeof(list_t)`. -/
def listSize : ℕ := 12

/-- `sizeof(proc_node_t)`. -/
def procNodeSize : ℕ := 8

/-- The kernel as `proc_run_code` finds it. -/
structure Exec where
  heap : Heap
  live : List ℕ
  machine : Machine
  ring : SchedRobin
  tempPage : ℕ
  nextPid : ℕ

/-- A saved argument: its buffer, the list node that points to it, and the text without the final NUL. -/
structure Arg where
  buff : ℕ
  node : ℕ
  text : List UInt8

namespace Machine

/-- The directory at `pd`, written through the page `tempPage`: the kernel's part of the
current one, and its own address in the last entry. -/
def copyDirectory (m : Machine) (tempPage pd : ℕ) : Option Machine := do
  let (p, m) ← m.pagingGetPage tempPage true 0
  let p ← p
  let e := BitVec.ofNat 32 pd ||| pagePresent ||| pageRw
  let m := m.store p e
  let dir := fun i => if i = 1023 then e else if i < kernelBaseVirt / 2 ^ 22 then 0 else m.dir i
  return { m with phys := Function.update m.phys (pd / 4096) dir }

/-- `previous_pd`. -/
def currentPd (m : Machine) : Option ℕ := do
  let (p, m) ← m.pagingGetPage 0xFFFFF000 false 0
  match p with
  | some p => return (m.load p &&& pageFrame).toNat
  | none => return 0

/-- The stack's pages. The allocator's answer is not checked. -/
def mapStack (m : Machine) : Option Machine :=
  let (phys, pmm) := m.pmm.pmmAllocPages procStackPages
  (m.withPmm pmm).pagingMapPages (0xC0000000 - 0x1000 * procStackPages) phys (pageUser ||| pageRw) procStackPages

/-- The texts on the user stack, each word-aligned below the one before: their addresses and
the last one. -/
def pushArgs (m : Machine) (ustack : ℕ) : List (List UInt8) → Option (List ℕ × ℕ × Machine)
  | [] => some ([], ustack, m)
  | arg :: rest => do
    let next := sub32 ustack (arg.length + 1) / 4 * 4
    let m ← m.writeBytes next (arg ++ [0])
    let (argv, ustack, m) ← m.pushArgs next rest
    return (next :: argv, ustack, m)

/-- `*(--ustack_int) = w`, for each word. -/
def pushWords (m : Machine) (ustack : ℕ) : List ℕ → Option (ℕ × Machine)
  | [] => some (ustack, m)
  | w :: rest => do
    let m ← m.writeBytes (sub32 ustack 4) (le 4 w)
    m.pushWords (sub32 ustack 4) rest

/-- The `(argc, argv)` part of the user stack. -/
def setupStack (m : Machine) (texts : List (List UInt8)) : Option Machine := do
  let (argv, ustack, m) ← m.pushArgs (0xC0000000 - 1) texts
  let (argvBase, m) ← m.pushWords (ustack / 4 * 4) (0 :: argv.reverse)
  let (_, m) ← m.pushWords argvBase [argvBase, argv.length]
  return m

end Machine

namespace Binary

/-- A flat binary at 0x1000, with zeros up to the end of its last page. -/
def loadFlat (x : Binary) (m : Machine) : Option Machine := do
  let num := divideUp x.size 0x1000
  let (phys, pmm) := m.pmm.pmmAllocPages num
  let m ← (m.withPmm pmm).pagingMapPages 0x1000 phys (pageUser ||| pageRw) num
  let m ← m.writeBytes 0x1000 (x.bytes 0 x.size)
  m.writeBytes (add32 0x1000 x.size) (List.replicate (num * 0x1000 - x.size) 0)

/-- The code and data of the process; `false` is an invalid ELF file. -/
def load (x : Binary) (m : Machine) : Option (Bool × Machine) :=
  if x.elfIsValid then x.elfLoad m else (x.loadFlat m).map fun m => (true, m)

end Binary

namespace Machine

/-- A flat binary that is read in memory. -/
def loadFlatAt (m : Machine) (buf size : ℕ) : Option Machine := do
  let num := divideUp size 0x1000
  let (phys, pmm) := m.pmm.pmmAllocPages num
  let m ← (m.withPmm pmm).pagingMapPages 0x1000 phys (pageUser ||| pageRw) num
  let m ← m.copyBytes 0x1000 buf size
  m.writeBytes (add32 0x1000 size) (List.replicate (num * 0x1000 - size) 0)

/-- The code and data of the process, from the file in memory. -/
def loadAt (m : Machine) (buf size : ℕ) : Option (Bool × Machine) :=
  if (m.fileAt buf size).elfIsValid then m.elfLoadAt buf size else (m.loadFlatAt buf size).map fun m => (true, m)

end Machine

namespace Exec

def alignedAlloc (fuel : ℕ) (s : Exec) (align size : ℕ) : Option (ℕ × Exec) := do
  let (p, heap) ← (← s.heap.alignedAlloc fuel align size)
  return (p, { s with heap := heap, live := p :: s.live })

def kmalloc (fuel : ℕ) (s : Exec) (size : ℕ) : Option (ℕ × Exec) := s.alignedAlloc fuel minAlign size

def kfree (s : Exec) (p : ℕ) : Exec := { s with heap := s.heap.kfree p, live := s.live.erase p }

/-- The static `temp_page`, allocated once. -/
def allocTempPage (fuel : ℕ) (s : Exec) : Option Exec :=
  if s.tempPage = 0 then do
    let (p, s) ← s.alignedAlloc fuel 0x1000 0x1000
    return { s with tempPage := p }
  else some s

/-- The copies of the arguments. -/
def saveArgs (fuel : ℕ) (s : Exec) : List (List UInt8) → Option (List Arg × Exec)
  | [] => some ([], s)
  | text :: rest => do
    let (buff, s) ← s.kmalloc fuel (text.length + 1)
    if buff = 0 then return ([], s)
    let (node, s) ← s.kmalloc fuel listSize
    let (args, s) ← s.saveArgs fuel rest
    return (if node = 0 then args else ⟨buff, node, text⟩ :: args, s)

/-- `kfree(arg); list_del(iter);` for each argument. -/
def freeArgs (s : Exec) (args : List Arg) : Exec := args.foldl (fun s a => (s.kfree a.buff).kfree a.node) s

/-- `scheduler->sched_add`, with the record `r` at `process`. -/
def schedAdd (fuel : ℕ) (s : Exec) (process : ℕ) (r : Process) : Option Exec := do
  let (node, s) ← s.kmalloc fuel procNodeSize
  let ring ← schedRobinAdd fuel { s.ring with proc := Function.update s.ring.proc process (some r) } process node
  return { s with ring := ring }

/-- The record of the new process. Its saved stack pointer is what the first switch starts from:
five words for `iret`, two for the interrupt, `pusha`, four segments, the return address and four
registers. -/
def newProcess (pid size pd kernelStack : ℕ) : Process where
  magic := 0xC0FEBABE
  pid := pid
  codeLen := divideUp size 0x1000
  directory := pd
  savedKernelStack := sub32 (add32 kernelStack (procKernelStackPages * 0x1000 - 4)) 96
  memLen := 0
  sleepTicks := 0
  shmNextVirt := 0xB0000000
  magic2 := 0xC0FEBABE

/-- `proc_run_code` of `size` bytes of code that `load` puts into the new directory; the inner `none` is `NULL`. -/
def runCode (fuel : ℕ) (s : Exec) (size : ℕ) (load : Machine → Option (Bool × Machine)) (argv : List (List UInt8)) :
    Option (Option ℕ × Exec) := do
  let s ← s.allocTempPage fuel
  let (args, s) ← s.saveArgs fuel argv
  let (process, s) ← s.kmalloc fuel processSize
  if process = 0 then return (none, s)
  let (kernelStack, s) ← s.alignedAlloc fuel 4 (0x1000 * procKernelStackPages)
  if kernelStack = 0 then return (none, s)
  let (pd, pmm) ← s.machine.pmm.pmmAllocPage
  let s := { s with machine := s.machine.withPmm pmm }
  if pd = 0 then return (none, s)
  let m ← s.machine.copyDirectory s.tempPage pd
  let previousPd ← m.currentPd
  if previousPd = 0 then return (none, { s with machine := m })
  let (ok, m) ← load (m.pagingSwitchDirectory pd)
  if ¬ ok then return (none, { s with machine := m.pagingSwitchDirectory previousPd })
  let m ← m.mapStack
  let m ← m.setupStack ((args.map Arg.text).take 64)
  let s := { s with machine := m.pagingSwitchDirectory previousPd }.freeArgs args
  let r := newProcess s.nextPid size pd kernelStack
  let s ← { s with nextPid := add32 s.nextPid 1 }.schedAdd fuel process r
  return (some process, s)

/-- `proc_run_code` of the code at `buf`. -/
def procRunCodeAt (fuel : ℕ) (s : Exec) (buf size : ℕ) (argv : List (List UInt8)) : Option (Option ℕ × Exec) :=
  s.runCode fuel size (fun m => m.loadAt buf size) argv

/-- The same for a file in constant memory. -/
def procRunCode (fuel : ℕ) (s : Exec) (x : Binary) (argv : List (List UInt8)) : Option (Option ℕ × Exec) :=
  s.runCode fuel x.size x.load argv

end Exec

end Saynaa
