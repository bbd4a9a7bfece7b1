import Saynaa.Mem.Paging

/-!
# Processes (`kernel/src/sys/proc.c`): the record and the heap break

`Process` has the fields of `process_t` that modelled code reads. `procSbrk` grows and
shrinks the heap of the current process, which starts behind its code at
`0x1000 + 0x1000 * code_len`.
-/

namespace Saynaa

/-- `process_t`. -/
structure Process where
  magic : ℕ
  pid : ℕ
  codeLen : ℕ
  directory : ℕ
  savedKernelStack : ℕ
  memLen : ℕ
  sleepTicks : ℕ
  shmNextVirt : ℕ
  magic2 : ℕ

/-- `sizeof(process_t)`. -/
def processSize : ℕ := 1336

/-- Iterations `i`, …, `i + k - 1` of `for (..) paging_unmap_page(virt - 0x1000 * i)`. -/
def Machine.unmapLoop (m : Machine) (virt : ℕ) : ℕ → ℕ → Option Machine
  | _, 0 => some m
  | i, k + 1 => do
    let m ← m.pagingUnmapPage (sub32 virt (0x1000 * i))
    m.unmapLoop virt (i + 1) k

/-- `proc_sbrk` of process `p`; the inner `none` is `(void*) -1`. -/
def procSbrk (m : Machine) (p : Process) (size : ℤ) : Option (Option ℕ × Machine × Process) :=
  let endAddr : ℕ := (0x1000 + 0x1000 * p.codeLen + p.memLen) % 2 ^ 32
  -- bytes available in the last allocated page
  let remainingBytes : ℕ := if endAddr % 0x1000 ≠ 0 then 0x1000 - endAddr % 0x1000 else 0
  let p' := { p with memLen := ofInt (p.memLen + size) }
  if size > 0 then
    if remainingBytes < size then do
      let neededSize := ofInt (size - remainingBytes)
      let num := divideUp neededSize 0x1000
      let (ok, m) ← m.pagingAllocPages (alignTo endAddr 0x1000) num
      -- the returned pointer is the address itself, so address 0 counts as a failure
      if ok ∧ alignTo endAddr 0x1000 ≠ 0 then return (some endAddr, m, p') else return (none, m, p)
    else some (some endAddr, m, p')
  else if size < 0 then
    if toInt32 (ofInt (endAddr + size)) < toInt32 (0x1000 * p.codeLen % 2 ^ 32) then some (none, m, p)
    else
      let taken : ℤ := 0x1000 - remainingBytes
      -- we must free at least a page
      if taken + size < 0 then do
        let freedSize := ofInt (taken - size)
        let num := divideUp freedSize 0x1000
        let m ← m.unmapLoop (endAddr - endAddr % 0x1000) 0 num
        return (some endAddr, m, p')
      else some (some endAddr, m, p')
  else some (some endAddr, m, p')

end Saynaa
