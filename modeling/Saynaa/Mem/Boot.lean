import Saynaa.Mem.Pmm

/-!
# The boot memory map (`init_pmm`)

The boot information is a list of tags up to the end tag. Module tags move the end of the
kernel up, and the first memory map tag says which memory is available: `initPmm` clears the
bits of available regions and sets those of the kernel and of the boot information.

Bases and lengths have 64 bits; regions are passed on in 32 bits.
-/

namespace Saynaa

/-- `mb2_mmap_entry_t`. -/
structure MmapEntry where
  baseAddr : ℕ
  length : ℕ
  type : ℕ
  base_lt : baseAddr < 2 ^ 64
  length_lt : length < 2 ^ 64

def mb2MmapAvail : ℕ := 1

/-- A tag; of those that `init_pmm` skips nothing is kept. -/
inductive Mb2Tag where
  | module (modEnd : Fin (2 ^ 32))
  | mmap (entries : List MmapEntry)
  | other

/-- `mb2_t` at `addr`, an object that ends below the top of the address space. -/
structure Mb2 where
  addr : ℕ
  totalSize : ℕ
  tags : List Mb2Tag
  fits : addr + totalSize < 2 ^ 32

/-- The kernel image, linked to start at 1 MiB: `__kernel_end_phys__`. -/
structure KernelImage where
  endPhys : ℕ
  start_le : 0x100000 ≤ endPhys
  fits : endPhys < 0x40000000

/-- `__kernel_end_virt__`. -/
def KernelImage.endVirt (k : KernelImage) : ℕ := endPhys k + 0xC0000000

/-- `KERNEL_END_MAP`. -/
def kernelEndMap : ℕ := 0xC0400000

/-- Words of `bitmap`. -/
def bitmapWords : ℕ := 1024 * 1024 / 32

/-- How `init_pmm` can go wrong. -/
inductive InitFault where
  /-- `abort`, the image is larger than its first mapping -/
  | tooLarge
  /-- `mb2_find_tag` returned `NULL` -/
  | noMap
  /-- an index behind the end of `bitmap` -/
  | outOfBounds
  deriving DecidableEq

/-- `mb2_find_tag(boot, MB2_TAG_MMAP)`. -/
def Mb2.findMmap (boot : Mb2) : Option (List MmapEntry) :=
  boot.tags.findSome? fun
    | .mmap entries => some entries
    | _ => none

/-- The end of the kernel and of the modules. -/
def kernelEnd (k : KernelImage) (boot : Mb2) : ℕ :=
  let last := boot.tags.foldl (fun last tag =>
    match tag with
    | .module modEnd => intMax modEnd last
    | _ => last) 0
  if last < k.endPhys then k.endPhys else last

namespace Pmm

/-- `while (num-- > 0) f(base_block++)`, where `f` writes into the bitmap. -/
def blockLoop (f : Pmm → ℕ → Pmm) : ℕ → ℕ → Pmm → Except InitFault Pmm
  | _, 0, p => .ok p
  | block, num + 1, p =>
    if block / 32 < bitmapWords then blockLoop f (block + 1) num (f p block) else .error .outOfBounds

/-- The blocks that a region touches. -/
def regionBlocks (addr size : ℕ) : ℕ × ℕ :=
  (addr / pmmBlockSize, divideUp (add32 size (addr % pmmBlockSize)) pmmBlockSize)

/-- Mark a region as available, but never block 0. -/
def pmmInitRegion (p : Pmm) (addr size : ℕ) : Except InitFault Pmm := do
  let (baseBlock, num) := regionBlocks addr size
  let p ← blockLoop mmapUnset baseBlock num p
  return p.mmapSet 0

/-- Mark a region as taken. -/
def pmmDeinitRegion (p : Pmm) (addr size : ℕ) : Except InitFault Pmm :=
  let (baseBlock, num) := regionBlocks addr size
  blockLoop mmapSet baseBlock num p

/-- One entry of the memory map; the number counts the available bytes. -/
def mapEntry (s : Pmm × ℕ) (ent : MmapEntry) : Except InitFault (Pmm × ℕ) :=
  if ent.type = mb2MmapAvail then do
    let p ← s.1.pmmInitRegion (ent.baseAddr % 2 ^ 32) (ent.length % 2 ^ 32)
    return (p, (s.2 + ent.length) % 2 ^ 64)
  else .ok s

/-- All blocks are taken. -/
def allTaken : Pmm := ⟨fun _ => 0xFFFFFFFF#32, 0, 0, by decide⟩

/-- `mem_size = available; max_blocks = mem_size / PMM_BLOCK_SIZE; used_blocks = max_blocks`. -/
def setSize (p : Pmm) (available : ℕ) : Pmm :=
  { bitmap := p.bitmap
    usedBlocks := available % 2 ^ 32 / pmmBlockSize
    maxBlocks := available % 2 ^ 32 / pmmBlockSize
    maxBlocks_lt := by
      unfold pmmBlockSize
      omega }

end Pmm

open Pmm

/-- `init_pmm`. -/
def initPmm (k : KernelImage) (boot : Mb2) : Except InitFault Pmm :=
  if k.endVirt > kernelEndMap then .error .tooLarge
  else
    match boot.findMmap with
    | none => .error .noMap
    | some entries => do
      let (p, available) ← entries.foldlM mapEntry (allTaken, 0)
      let p := p.setSize available
      let p ← p.pmmDeinitRegion 0 (kernelEnd k boot)
      p.pmmDeinitRegion boot.addr boot.totalSize

end Saynaa
