import Saynaa.Mem.Malloc

/-!
# The heap of a process (`libraries/libc/src/stdlib/malloc.c`)

`mem_block_total_size`, `mem_get_block`, `mem_find_block` and `mem_new_block` are those of
the kernel's allocator, whose counter is not used here. `g_bottom` is where the break was at
the first call, for which 8 bytes are asked.

The kernel answers `SYS_SBRK` with the old break, which it moves, or with `-1`. The answers
to the up to three calls that `aligned_alloc` makes are an argument.
-/

namespace Saynaa

open Lib Heap

/-- `(void*) -1`. -/
def sbrkFailed : ℕ := 2 ^ 32 - 1

/-- Which calls of `sbrk_local` succeed: the first 8 bytes, the question for the break, and
the growth of the heap. -/
structure Grants where
  first : Bool
  query : Bool
  grow : Bool
  deriving DecidableEq

/-- The allocator of a process and its break. -/
structure UserHeap where
  heap : Heap
  brk : ℕ

namespace UserHeap

/-- `sbrk_local`. -/
def sbrkLocal (h : UserHeap) (granted : Bool) (size : ℤ) : ℕ × UserHeap :=
  if granted then (h.brk, { h with brk := ofInt (h.brk + size) }) else (sbrkFailed, h)

/-- The first call makes the empty used block, `none` if it gets no memory. -/
def setup (h : UserHeap) (g : Grants) : Option UserHeap :=
  if h.heap.top = 0 then
    let (addr, h) := h.sbrkLocal g.first headerSize
    if addr = sbrkFailed then none
    else
      let heap := { h.heap with bottom := addr, top := addr }
      some { h with heap := (heap.setSize heap.top 1).setNext heap.top 0 }
  else some h

/-- `mem_new_block` and the return of `aligned_alloc`. -/
def place (h : UserHeap) (req align : ℕ) : ℕ × UserHeap :=
  let r := h.heap.memNewBlock req align
  (r.1 + headerSize, { h with heap := r.2 })

/-- `aligned_alloc`; `NULL` is 0. -/
def alignedAlloc (h : UserHeap) (g : Grants) (align size : ℕ) : Option (ℕ × UserHeap) :=
  let req := alignTo (size % 2 ^ 32) 8
  let align := align % 2 ^ 32
  match h.setup g with
  | none => some (0, h)
  | some h => do
    match ← h.heap.memFindBlock searchFuel req align with
    | some block => return (block + headerSize, { h with heap := h.heap.setSize block (setFlag (h.heap.size block)) })
    | none =>
      let stop := add32 (add32 h.heap.top (h.heap.memBlockSize h.heap.top)) headerSize
      let stop := add32 (alignTo stop align) req
      let (brk, h) := h.sbrkLocal g.query 0
      if stop > brk then
        let (old, h) := h.sbrkLocal g.grow (toInt32 (sub32 stop brk))
        if old = sbrkFailed then return (0, h)
        return h.place req align
      return h.place req align

def malloc (h : UserHeap) (g : Grants) (size : ℕ) : Option (ℕ × UserHeap) := h.alignedAlloc g minAlign size

/-- `calloc`; the product has the 64 bits of `size_t`, the number of bytes that are cleared 32. -/
def calloc (h : UserHeap) (g : Grants) (nmemb size : ℕ) : Option (ℕ × UserHeap) := do
  let bytes := nmemb * size % 2 ^ 64
  let (ptr, h) ← h.malloc g bytes
  if ptr = 0 then return (0, h)
  return (ptr, { h with heap := { h.heap with mem := copyIn h.heap.mem ptr (List.replicate (bytes % 2 ^ 32) 0) } })

def free (h : UserHeap) (pointer : ℕ) : UserHeap :=
  if pointer = 0 then h
  else
    let block := memGetBlock pointer
    { h with heap := h.heap.setSize block (clearFlag (h.heap.size block)) }

def realloc (h : UserHeap) (g : Grants) (ptr size : ℕ) : Option (ℕ × UserHeap) :=
  if ptr = 0 then h.malloc g size
  else if size = 0 then some (0, h.free ptr)
  else do
    let (n, h) ← h.malloc g size
    if n = 0 then return (0, h)
    let old := clearFlag (h.heap.size (memGetBlock ptr))
    let copy := if old > size % 2 ^ 32 then size % 2 ^ 32 else old
    let h := { h with heap := { h.heap with mem := copyIn h.heap.mem n (copyOut h.heap.mem ptr copy) } }
    return (n, h.free ptr)

end UserHeap

end Saynaa
