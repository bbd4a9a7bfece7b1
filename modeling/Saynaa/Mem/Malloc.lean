import Saynaa.Lib.Bytes
import Saynaa.Libc.Math

/-!
# The kernel heap (`kernel/src/mem/malloc.c`)

A block is the address of the next block, its size with the used flag in the last bit, and
the payload. The blocks lie one behind the other from `KERNEL_HEAP_BEGIN` on; their frames,
which the source maps before the first allocation, are taken to be there.

`none` is running out of fuel in the search for a block; an inner `none` is an abort.
-/

namespace Saynaa

open Lib

def kernelHeapBegin : ℕ := 0xC0400000
def kernelHeapSize : ℕ := 0x1E00000
def minAlign : ℕ := 4

/-- `sizeof(mem_block_t)`. -/
def memBlockStruct : ℕ := 12

/-- `offsetof(mem_block_t, data)`. -/
def headerSize : ℕ := 8

/-- More steps than a search for a block can take. -/
@[irreducible] def searchFuel : ℕ := 2 ^ 32

/-- `size & ~1`. -/
def clearFlag (size : ℕ) : ℕ := size / 2 * 2

/-- `size | 1`. -/
def setFlag (size : ℕ) : ℕ := size / 2 * 2 + 1

/-- The heap's memory and globals. -/
structure Heap where
  mem : ℕ → UInt8
  bottom : ℕ
  top : ℕ
  usedMemory : ℕ

namespace Heap

/-- `block->next`. -/
def next (h : Heap) (block : ℕ) : ℕ := load 4 h.mem block

/-- `block->size`. -/
def size (h : Heap) (block : ℕ) : ℕ := load 4 h.mem (block + 4)

def setNext (h : Heap) (block v : ℕ) : Heap := { h with mem := store 4 h.mem block v }

def setSize (h : Heap) (block v : ℕ) : Heap := { h with mem := store 4 h.mem (block + 4) v }

/-- `top->next = block; top = block`. -/
def pushTop (h : Heap) (block : ℕ) : Heap := { h.setNext h.top block with top := block }

def memBlockSize (h : Heap) (block : ℕ) : ℕ := add32 memBlockStruct (clearFlag (h.size block))

def memGetBlock (pointer : ℕ) : ℕ := add32 (sub32 pointer memBlockStruct) 4

/-- Append a block, and a free one before it where the alignment leaves enough space. -/
def memNewBlock (h : Heap) (size align : ℕ) : ℕ × Heap :=
  let next := add32 h.top (h.memBlockSize h.top)
  let nextAligned := sub32 (alignTo (add32 next headerSize) align) headerSize
  let block := nextAligned
  let h := (h.setSize block (setFlag size)).setNext block 0
  let next := sub32 (alignTo (add32 next headerSize) minAlign) headerSize
  let h :=
    if sub32 nextAligned next > memBlockStruct + minAlign then
      let filler := next
      (h.setSize filler (sub32 (sub32 nextAligned next) memBlockStruct)).pushTop filler
    else h
  (block, h.pushTop block)

def memIsAligned (block align : ℕ) : Prop := (block + headerSize) % align = 0

instance (block align : ℕ) : Decidable (memIsAligned block align) := inferInstanceAs (Decidable (_ = _))

/-- The search from `block` on; the inner `none` is `NULL`. -/
def findLoop (h : Heap) (size align : ℕ) : ℕ → ℕ → Option (Option ℕ)
  | 0, _ => none
  | fuel + 1, block =>
    if clearFlag (h.size block) < size ∨ h.size block % 2 = 1 ∨ ¬ memIsAligned block align then
      if h.next block = 0 then some none else h.findLoop size align fuel (h.next block)
    else some (some block)

def memFindBlock (fuel : ℕ) (h : Heap) (size align : ℕ) : Option (Option ℕ) :=
  if h.bottom = 0 then some none else h.findLoop size align fuel h.bottom

def kfree (h : Heap) (pointer : ℕ) : Heap :=
  if pointer = 0 then h
  else
    let block := memGetBlock pointer
    let h := h.setSize block (clearFlag (h.size block))
    { h with usedMemory := sub32 h.usedMemory (h.size block) }

/-- A list with one used block of size 0. -/
def setup (h : Heap) : Heap :=
  if h.top = 0 then
    let h := { h with bottom := kernelHeapBegin, top := kernelHeapBegin }
    (h.setSize h.top 1).setNext h.top 0
  else h

/-- `aligned_alloc`; `size_t` has 64 bits, the block sizes 32. -/
def alignedAlloc (fuel : ℕ) (h : Heap) (align size : ℕ) : Option (Option (ℕ × Heap)) := do
  let align := align % 2 ^ 32
  let size := alignTo (size % 2 ^ 32) 8
  let h := h.setup
  match ← memFindBlock fuel h size align with
  | some block =>
    let h := { h with usedMemory := add32 h.usedMemory (h.size block) }
    return some (block + headerSize, h.setSize block (setFlag (h.size block)))
  | none =>
    let stop := add32 (add32 h.top (h.memBlockSize h.top)) headerSize
    let stop := add32 (alignTo stop align) size
    if stop > kernelHeapBegin + kernelHeapSize then return none
    else
      let (block, h) := h.memNewBlock size align
      return some (block + headerSize, { h with usedMemory := add32 h.usedMemory size })

def kmalloc (fuel : ℕ) (h : Heap) (size : ℕ) : Option (Option (ℕ × Heap)) := alignedAlloc fuel h minAlign size

def kamalloc (fuel : ℕ) (h : Heap) (size align : ℕ) : Option (Option (ℕ × Heap)) := alignedAlloc fuel h align size

/-- `krealloc`: the copy has the size of the old block, also where the new one is smaller. -/
def krealloc (fuel : ℕ) (h : Heap) (ptr size : ℕ) : Option (Option (ℕ × Heap)) :=
  if ptr = 0 then kmalloc fuel h size
  else if size = 0 then some (some (0, h.kfree ptr))
  else do
    match ← kmalloc fuel h size with
    | none => return none
    | some (new, h) =>
      let old := copyOut h.mem ptr (clearFlag (h.size (memGetBlock ptr)))
      let h := { h with mem := copyIn h.mem new old }
      return some (new, h.kfree ptr)

def memoryUsage (h : Heap) : ℕ := h.usedMemory

end Heap

end Saynaa
