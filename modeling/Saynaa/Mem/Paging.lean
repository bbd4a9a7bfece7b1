import Saynaa.Mem.Pmm

/-!
# Paging (`kernel/src/mem/paging.c`)

Physical memory is modelled word by word, as far as paging structures need it:
`phys f i` is word `i` of frame `f`. The kernel reaches the current directory and its
tables through the recursive last directory entry: the table of directory entry `i` is
at virtual address `0xFFC00000 + (i << 12)` and the directory itself at `0xFFFFF000`.
A `page_t*` is the physical word such an address resolves to (`walk_window`).

A result `none` is a kernel abort. The TLB is not modelled. `tableLost` is a history
variable: it records that the allocator had no frame for a page table, which the source
does not check.
-/

namespace Saynaa

def pagePresent : BitVec 32 := 1
def pageRw : BitVec 32 := 2
def pageUser : BitVec 32 := 4
def pageLarge : BitVec 32 := 128
def pageFrame : BitVec 32 := 0xFFFFF000
def pageFlags : BitVec 32 := 0x00000FFF

/-- `DIRECTORY_INDEX(x)`. -/
def dirIndex (x : ℕ) : ℕ := x / 2 ^ 22

/-- `TABLE_INDEX(x)`. -/
def tableIndex (x : ℕ) : ℕ := x / 2 ^ 12 % 1024

/-- The frame number in an entry. -/
def frameOf (e : BitVec 32) : ℕ := (e &&& pageFrame).toNat / 4096

/-- Byte `k` of a word. -/
def getByte (w : BitVec 32) (k : ℕ) : UInt8 := UInt8.ofBitVec ((w >>> (8 * k)).setWidth 8)

/-- Byte `k` of a word replaced. -/
def setByte (w : BitVec 32) (k : ℕ) (b : UInt8) : BitVec 32 :=
  (w &&& ~~~(0xFF#32 <<< (8 * k))) ||| (BitVec.ofNat 32 b.toNat <<< (8 * k))

/-- `entry & PAGE_PRESENT`. -/
def present (e : BitVec 32) : Prop := e &&& pagePresent ≠ 0

/-- `entry & PAGE_LARGE`. -/
def large (e : BitVec 32) : Prop := e &&& pageLarge ≠ 0

instance (e : BitVec 32) : Decidable (present e) := inferInstanceAs (Decidable (_ ≠ _))
instance (e : BitVec 32) : Decidable (large e) := inferInstanceAs (Decidable (_ ≠ _))

/-- The frame allocator, physical memory and the frame of the current directory. -/
structure Machine where
  pmm : Pmm
  phys : ℕ → ℕ → BitVec 32
  cr3 : ℕ
  tableLost : Bool

/-- A `page_t*`: word `idx` of frame `frame`. -/
structure PagePtr where
  frame : ℕ
  idx : ℕ

namespace Machine

/-- Entry `i` of the current directory. -/
def dir (m : Machine) (i : ℕ) : BitVec 32 := m.phys m.cr3 i

/-- The frame of the table at `0xFFC00000 + (i << 12)`. -/
def tableFrame (m : Machine) (i : ℕ) : ℕ := frameOf (m.dir i)

def load (m : Machine) (p : PagePtr) : BitVec 32 := m.phys p.frame p.idx

def store (m : Machine) (p : PagePtr) (e : BitVec 32) : Machine :=
  { m with phys := fun f i => if f = p.frame ∧ i = p.idx then e else m.phys f i }

/-- `memset(frame, 0, 4096)`. -/
def zeroFrame (m : Machine) (f : ℕ) : Machine :=
  { m with phys := fun g i => if g = f then 0 else m.phys g i }

def withPmm (m : Machine) (p : Pmm) : Machine := { m with pmm := p }

/-- The processor's translation of a virtual address: frame and byte in the frame. -/
def walk (m : Machine) (v : ℕ) : Option (ℕ × ℕ) :=
  let de := m.dir (dirIndex v)
  if ¬ present de then none
  else if large de then some (de.toNat / 2 ^ 22 * 1024 + tableIndex v, v % 4096)
  else
    let te := m.phys (frameOf de) (tableIndex v)
    if ¬ present te then none else some (frameOf te, v % 4096)

/-- What the processor reads at a virtual address; `none` is a page fault. -/
def byteAt (m : Machine) (v : ℕ) : Option UInt8 := (m.walk v).map fun w => getByte (m.phys w.1 (w.2 / 4)) (w.2 % 4)

/-- A byte stored at a virtual address; `none` is a page fault. -/
def writeByte (m : Machine) (v : ℕ) (b : UInt8) : Option Machine := do
  let (f, off) ← m.walk v
  return m.store ⟨f, off / 4⟩ (setByte (m.phys f (off / 4)) (off % 4) b)

/-- `memcpy` to `v`, byte after byte. -/
def writeBytes (m : Machine) (v : ℕ) : List UInt8 → Option Machine
  | [] => some m
  | b :: rest => do
    let m ← m.writeByte v b
    m.writeBytes (add32 v 1) rest

/-- `mov %0, %%cr3`. -/
def pagingSwitchDirectory (m : Machine) (dirPhys : ℕ) : Machine := { m with cr3 := dirPhys / 4096 }

/-- The `create` branch of `paging_get_page`: a new, empty table for directory entry `i`.
The allocator's answer is not checked. -/
def createTable (m : Machine) (i : ℕ) (flags : BitVec 32) : Option Machine := do
  let (newTable, pmm) ← m.pmm.pmmAllocPage
  let de := BitVec.ofNat 32 newTable ||| pagePresent ||| pageRw ||| (flags &&& pageFlags)
  let m := (m.withPmm pmm).store ⟨m.cr3, i⟩ de
  return { m.zeroFrame (m.tableFrame i) with tableLost := m.tableLost || newTable = 0 }

/-- The entry of a page-aligned address; the inner `none` is `NULL`. -/
def pagingGetPage (m : Machine) (virt : ℕ) (create : Bool) (flags : BitVec 32) :
    Option (Option PagePtr × Machine) :=
  if virt % 0x1000 ≠ 0 then none
  else do
    let i := dirIndex virt
    let m ← if ¬ present (m.dir i) ∧ create then m.createTable i flags else some m
    if present (m.dir i) then return (some ⟨m.tableFrame i, tableIndex virt⟩, m)
    else return (none, m)

def pagingMapPage (m : Machine) (virt : ℕ) (phys flags : BitVec 32) : Option Machine := do
  let (page, m) ← m.pagingGetPage virt true flags
  let page ← page
  if present (m.load page) then none
  else return m.store page (phys ||| pagePresent ||| (flags &&& pageFlags))

def pagingMapPages (m : Machine) (virt phys : ℕ) (flags : BitVec 32) : ℕ → Option Machine
  | 0 => some m
  | num + 1 => do
    let m ← m.pagingMapPage virt (BitVec.ofNat 32 phys) flags
    m.pagingMapPages (add32 virt 0x1000) (add32 phys 0x1000) flags num

def pagingUnmapPage (m : Machine) (virt : ℕ) : Option Machine := do
  let (page, m) ← m.pagingGetPage virt false 0
  match page with
  | some page =>
    let pmm := m.pmm.pmmFreePage (m.load page &&& pageFrame).toNat
    return (m.withPmm pmm).store page 0
  | none => return m

/-- Iterations `i`, …, `i + k - 1` of the loop of `paging_alloc_pages`; `false` is the
early `return NULL`. -/
def pagingAllocLoop (m : Machine) (virt : ℕ) : ℕ → ℕ → Option (Bool × Machine)
  | _, 0 => some (true, m)
  | i, k + 1 => do
    let (page, pmm) ← m.pmm.pmmAllocPage
    if page = 0 then return (false, m.withPmm pmm)
    else
      let (p, m) ← (m.withPmm pmm).pagingGetPage (add32 virt (i * 0x1000)) true (pageRw ||| pageUser)
      let p ← p
      let e := BitVec.ofNat 32 page ||| pagePresent ||| pageRw ||| pageUser
      (m.store p e).pagingAllocLoop virt (i + 1) k

def pagingAllocPages (m : Machine) (virt size : ℕ) : Option (Bool × Machine) :=
  m.pagingAllocLoop virt 0 size

/-- The physical address of `virt`, or 0. -/
def pagingVirtToPhys (m : Machine) (virt : ℕ) : Option ℕ := do
  let (p, m) ← m.pagingGetPage (virt / 4096 * 4096) false 0
  match p with
  | none => return 0
  | some p => return (m.load p &&& pageFrame).toNat + virt % 4096

end Machine

end Saynaa
