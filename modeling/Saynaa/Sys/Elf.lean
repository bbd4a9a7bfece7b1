import Saynaa.Lib.Bytes
import Saynaa.Mem.Paging

/-!
# The ELF loader (`kernel/src/sys/elf.c`)

`elf_load` maps the loadable segments of a 32-bit executable into the current directory. A file
is `size` bytes at the address `buf`. Offsets into it are 32-bit sums, which are bounded by the
size only in part, so reads go to the memory around it.

* `elfLoadAt` reads the file in the memory of the machine, where a segment may be copied over it.
* `elfLoad` is the same for a file in the constant memory `mem`. Where the loader does not write
  to its file, they agree (`elfLoadAt_eq`).

`none` is a kernel abort or a page fault.
-/

namespace Saynaa

open Lib

/-- A file in memory. -/
structure Binary where
  mem : ℕ → UInt8
  buf : ℕ
  size : ℕ

/-- The fields of `Elf32_Phdr` that are read. -/
structure Elf32Phdr where
  pType : ℕ
  pOffset : ℕ
  pVaddr : ℕ
  pFilesz : ℕ
  pMemsz : ℕ

/-- `sizeof(Elf32_Ehdr)`. -/
def elf32EhdrSize : ℕ := 52

/-- `sizeof(Elf32_Phdr)`. -/
def elf32PhdrSize : ℕ := 32

def ptLoad : ℕ := 1

namespace Binary

variable (x : Binary)

def half (off : ℕ) : ℕ := load 2 x.mem (add32 x.buf off)

def word (off : ℕ) : ℕ := load 4 x.mem (add32 x.buf off)

def eType : ℕ := x.half 16
def eMachine : ℕ := x.half 18
def eVersion : ℕ := x.word 20
def eEntry : ℕ := x.word 24
def ePhoff : ℕ := x.word 28
def ePhnum : ℕ := x.half 44

/-- The program header at the offset `off`. -/
def header (off : ℕ) : Elf32Phdr :=
  ⟨x.word off, x.word (add32 off 4), x.word (add32 off 8), x.word (add32 off 16), x.word (add32 off 20)⟩

/-- The offset of program header `i`. -/
def headerOff (i : ℕ) : ℕ := add32 x.ePhoff (i * elf32PhdrSize)

/-- Program header `i`. -/
def phdr (i : ℕ) : Elf32Phdr := x.header (x.headerOff i)

/-- `elf_is_valid`: the magic number, `ELFCLASS32`, `ELFDATA2LSB`, `EM_386`, `ET_EXEC`, `EV_CURRENT`. -/
def elfIsValid : Prop :=
  (x.buf ≠ 0 ∧ elf32EhdrSize ≤ x.size) ∧ copyOut x.mem x.buf 6 = [0x7F, 0x45, 0x4C, 0x46, 1, 1] ∧
    x.eMachine = 3 ∧ x.eType = 2 ∧ x.eVersion = 1

instance : Decidable x.elfIsValid := inferInstanceAs (Decidable (_ ∧ _))

/-- The `n` bytes at offset `off`. -/
def bytes (off n : ℕ) : List UInt8 := (List.range n).map fun i => x.mem (add32 (add32 x.buf off) i)

/-- The body of the loop, for a loadable segment. The allocator's answer is not checked. -/
def loadSegment (m : Machine) (ph : Elf32Phdr) : Option Machine := do
  let pageBase := ph.pVaddr / 0x1000 * 0x1000
  let pageOff := ph.pVaddr % 0x1000
  let total := add32 ph.pMemsz pageOff
  let pages := divideUp total 0x1000
  let (phys, pmm) := m.pmm.pmmAllocPages pages
  let m ← (m.withPmm pmm).pagingMapPages pageBase phys (pageUser ||| pageRw) pages
  let m ← m.writeBytes ph.pVaddr (x.bytes ph.pOffset ph.pFilesz)
  if ph.pMemsz > ph.pFilesz then
    m.writeBytes (add32 ph.pVaddr ph.pFilesz) (List.replicate (ph.pMemsz - ph.pFilesz) 0)
  else return m

/-- The test of the loop body: `p_offset + p_filesz > size`. -/
def segmentOut (ph : Elf32Phdr) : Prop := x.size < add32 ph.pOffset ph.pFilesz

instance (ph : Elf32Phdr) : Decidable (x.segmentOut ph) := inferInstanceAs (Decidable (_ < _))

/-- Iterations `i`, …, `i + k - 1` of the loop; `false` is the return of `-1`. -/
def loadLoop (m : Machine) (i : ℕ) : ℕ → Option (Bool × Machine)
  | 0 => some (true, m)
  | k + 1 =>
    if (x.phdr i).pType ≠ ptLoad then loadLoop m (i + 1) k
    else if x.segmentOut (x.phdr i) then some (false, m)
    else do
      let m ← x.loadSegment m (x.phdr i)
      loadLoop m (i + 1) k

/-- The program headers end behind the file. -/
def headersOut : Prop := x.size < add32 x.ePhoff (x.ePhnum * elf32PhdrSize)

instance : Decidable x.headersOut := inferInstanceAs (Decidable (_ < _))

/-- `elf_load`; `false` is `-1`. The entry point is in `elfLoadEntry`. -/
def elfLoad (m : Machine) : Option (Bool × Machine) :=
  if ¬ x.elfIsValid then some (false, m)
  else if x.headersOut then some (false, m)
  else x.loadLoop m 0 x.ePhnum

/-- `elf_load` with what it writes to `*entry_out`, if it does. -/
def elfLoadEntry (m : Machine) : Option (Option ℕ × Machine) :=
  (x.elfLoad m).map fun (ok, m) => (if ok then some x.eEntry else none, m)

end Binary

/-! ### The file in memory

`elf_load` reads the file where it lies, also after it has written to memory, and a segment may be
copied over the file. -/

/-- The file of `size` bytes at `buf`, as it is in memory. A read that is a page fault gives 0 here. -/
def Machine.fileAt (m : Machine) (buf size : ℕ) : Binary := ⟨fun v => (m.byteAt v).getD 0, buf, size⟩

namespace Machine

/-- `memcpy` in memory, byte after byte. -/
def copyBytes (m : Machine) (dst src : ℕ) : ℕ → Option Machine
  | 0 => some m
  | n + 1 => do
    let m ← m.writeByte dst ((m.byteAt src).getD 0)
    m.copyBytes (add32 dst 1) (add32 src 1) n

/-- The pages of a segment. -/
def mapSegment (m : Machine) (ph : Elf32Phdr) : Option Machine :=
  let pages := divideUp (add32 ph.pMemsz (ph.pVaddr % 0x1000)) 0x1000
  let (phys, pmm) := m.pmm.pmmAllocPages pages
  (m.withPmm pmm).pagingMapPages (ph.pVaddr / 0x1000 * 0x1000) phys (pageUser ||| pageRw) pages

/-- The body of the loop, for a loadable segment with its header at offset `off`. The header's fields are read
again when the pages are mapped, and after the copy. -/
def loadSegmentAt (m : Machine) (buf size off : ℕ) : Option Machine := do
  let ph := (m.fileAt buf size).header off
  let m ← m.mapSegment ph
  let copied := (m.fileAt buf size).header off
  let m ← m.copyBytes ph.pVaddr (add32 buf copied.pOffset) copied.pFilesz
  let cleared := (m.fileAt buf size).header off
  if cleared.pMemsz > cleared.pFilesz then
    m.writeBytes (add32 ph.pVaddr cleared.pFilesz) (List.replicate (cleared.pMemsz - cleared.pFilesz) 0)
  else return m

/-- Iterations `i`, …, `i + k - 1` of the loop, which ends at `e_phnum`. -/
def loadLoopAt (m : Machine) (buf size i : ℕ) : ℕ → Option (Bool × Machine)
  | 0 => some (true, m)
  | k + 1 =>
    let x := m.fileAt buf size
    if x.ePhnum ≤ i then some (true, m)
    else if (x.phdr i).pType ≠ ptLoad then m.loadLoopAt buf size (i + 1) k
    else if x.segmentOut (x.phdr i) then some (false, m)
    else do
      let m ← m.loadSegmentAt buf size (x.headerOff i)
      m.loadLoopAt buf size (i + 1) k

/-- `i` and `e_phnum` are `uint16_t`s. -/
@[irreducible] def maxHeaders : ℕ := 2 ^ 16

/-- `elf_load`, on the file in memory. -/
def elfLoadAt (m : Machine) (buf size : ℕ) : Option (Bool × Machine) :=
  let x := m.fileAt buf size
  if ¬ x.elfIsValid then some (false, m)
  else if x.headersOut then some (false, m)
  else m.loadLoopAt buf size 0 maxHeaders

end Machine

end Saynaa
