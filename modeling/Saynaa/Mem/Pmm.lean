import Saynaa.Lib.Loop
import Saynaa.Lib.Bits
import Saynaa.Libc.Math

/-!
# The physical memory manager (`kernel/src/mem/pmm.c`)

Physical memory is handed out in blocks of 4 KiB. Bit `b` of `bitmap` is set when
block `b` is taken. Three allocators share the bitmap: the first clear bit
(`pmmAllocPage`), the first run of `num` clear bits (`pmmAllocPages`), and a 4 MiB
area cut out of a run of 2048 clear bits (`pmmAllocAlignedLargePage`). A block
number of 0 means that nothing was found.
-/

namespace Saynaa

open Lib

/-- The allocator's globals. `max_blocks` is a 32-bit byte count divided by 4096. -/
structure Pmm where
  bitmap : ℕ → BitVec 32
  usedBlocks : ℕ
  maxBlocks : ℕ
  maxBlocks_lt : maxBlocks < 2 ^ 20

def pmmBlockSize : ℕ := 4096

/-- `NTHBIT(n)`. -/
def nthBit (n : ℕ) : BitVec 32 := bitMask 32 n

namespace Pmm

/-- Block `b` is marked as taken. -/
def Used (p : Pmm) (b : ℕ) : Prop := getBit p.bitmap b = true

instance (p : Pmm) (b : ℕ) : Decidable (p.Used b) := inferInstanceAs (Decidable (_ = true))

def mmapSet (p : Pmm) (bit : ℕ) : Pmm :=
  { p with bitmap := setBit p.bitmap bit, usedBlocks := add32 p.usedBlocks 1 }

def mmapUnset (p : Pmm) (bit : ℕ) : Pmm :=
  { p with bitmap := clearBit p.bitmap bit, usedBlocks := sub32 p.usedBlocks 1 }

/-- The index of the first free bit, or 0. -/
def mmapFindFree (p : Pmm) : ℕ :=
  match forUp (σ := Unit) (fun i _ =>
      if p.bitmap i ≠ 0xFFFFFFFF#32 then
        forUp (fun j _ =>
          if p.bitmap i &&& nthBit j = 0 then .ret (i * 32 + j) else .next ()) 0 32 ()
      else .next ()) 0 (p.maxBlocks / 32) () with
  | .ret b => b
  | .next _ => 0

/-- The locals of the run search: the run's first block (0 when there is no run)
and the number of free blocks seen. -/
structure Scan where
  first : ℕ
  count : ℕ

/-- One bit of the run search. -/
def scanBit (p : Pmm) (frameSize i j : ℕ) (s : Scan) : Flow ℕ Scan :=
  let s : Scan :=
    if p.bitmap i &&& nthBit j = 0 then
      ⟨if s.first = 0 then i * 32 + j else s.first, s.count + 1⟩
    else ⟨0, 0⟩
  if s.count = frameSize then .ret s.first else .next s

/-- The first block of a run of `frameSize` free bits, or 0. -/
def mmapFindFreeFrame (p : Pmm) (frameSize : ℕ) : ℕ :=
  match forUp (fun i s =>
      if p.bitmap i ≠ 0xFFFFFFFF#32 then forUp (p.scanBit frameSize i) 0 32 s
      else .next ⟨0, 0⟩) 0 (p.maxBlocks / 32) ⟨0, 0⟩ with
  | .ret b => b
  | .next _ => 0

/-- `for (i = 0; i < num; i++) mmap_set(first + i)`. -/
def mmapSetRange (p : Pmm) (first : ℕ) : ℕ → Pmm
  | 0 => p
  | num + 1 => (p.mmapSetRange first num).mmapSet (first + num)

/-- `for (i = 0; i < num; i++) mmap_unset(first + i)`. -/
def mmapUnsetRange (p : Pmm) (first : ℕ) : ℕ → Pmm
  | 0 => p
  | num + 1 => (p.mmapUnsetRange first num).mmapUnset (first + num)

/-- The address of a fresh page, or 0; `none` when the kernel aborts. -/
def pmmAllocPage (p : Pmm) : Option (ℕ × Pmm) :=
  if sub32 p.maxBlocks p.usedBlocks ≤ 0 then none
  else
    let block := p.mmapFindFree
    if block = 0 then some (0, p)
    else some (block * pmmBlockSize, p.mmapSet block)

/-- The address of a fresh 4 MiB-aligned area of 4 MiB, or 0. -/
def pmmAllocAlignedLargePage (p : Pmm) : ℕ × Pmm :=
  if sub32 p.maxBlocks p.usedBlocks < 2 * 1024 then (0, p)
  else
    let freeBlock := p.mmapFindFreeFrame (2 * 1024)
    if freeBlock = 0 then (0, p)
    else
      let alignedBlock := (freeBlock / 1024 + 1) * 1024
      (alignedBlock * pmmBlockSize, p.mmapSetRange alignedBlock 1024)

/-- The address of `num` fresh contiguous pages, or 0. -/
def pmmAllocPages (p : Pmm) (num : ℕ) : ℕ × Pmm :=
  if sub32 p.maxBlocks p.usedBlocks < num then (0, p)
  else
    let firstBlock := p.mmapFindFreeFrame num
    if firstBlock = 0 then (0, p)
    else (firstBlock * pmmBlockSize, p.mmapSetRange firstBlock num)

def pmmFreePage (p : Pmm) (addr : ℕ) : Pmm := p.mmapUnset (addr / pmmBlockSize)

def pmmFreePages (p : Pmm) (addr num : ℕ) : Pmm := p.mmapUnsetRange (addr / pmmBlockSize) num

end Pmm

/-- A call into the allocator. -/
inductive PmmCall where
  | allocPage
  | allocPages (num : ℕ)
  | allocAlignedLargePage
  | freePage (addr : ℕ)
  | freePages (addr num : ℕ)

/-- The call's return value (0 for the two `void` ones) and the new state. -/
def PmmCall.exec (p : Pmm) : PmmCall → Option (ℕ × Pmm)
  | .allocPage => p.pmmAllocPage
  | .allocPages num => some (p.pmmAllocPages num)
  | .allocAlignedLargePage => some p.pmmAllocAlignedLargePage
  | .freePage addr => some (0, p.pmmFreePage addr)
  | .freePages addr num => some (0, p.pmmFreePages addr num)

/-- The blocks `[first, first + num)`. -/
def blockRange (first num : ℕ) : Set ℕ := {b | first ≤ b ∧ b < first + num}

/-- The blocks a call hands to its caller when it returns `r`. -/
def PmmCall.granted (r : ℕ) : PmmCall → Set ℕ
  | .allocPage => if r = 0 then ∅ else blockRange (r / pmmBlockSize) 1
  | .allocPages num => if r = 0 then ∅ else blockRange (r / pmmBlockSize) num
  | .allocAlignedLargePage => if r = 0 then ∅ else blockRange (r / pmmBlockSize) 1024
  | .freePage _ => ∅
  | .freePages _ _ => ∅

/-- The blocks a call gives back. -/
def PmmCall.freed : PmmCall → Set ℕ
  | .freePage addr => blockRange (addr / pmmBlockSize) 1
  | .freePages addr num => blockRange (addr / pmmBlockSize) num
  | _ => ∅

/-- The allocator and the blocks of its outstanding allocations. -/
structure PmmHeld where
  pmm : Pmm
  held : Set ℕ

/-- One call, by callers that free only blocks of outstanding allocations. -/
inductive PmmStep : PmmHeld → PmmHeld → Prop
  | call (s : PmmHeld) (c : PmmCall) (r : ℕ) (p' : Pmm) (hfree : c.freed ⊆ s.held)
      (hexec : c.exec s.pmm = some (r, p')) :
      PmmStep s ⟨p', s.held \ c.freed ∪ c.granted r⟩

end Saynaa
