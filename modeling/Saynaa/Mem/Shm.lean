import Saynaa.Mem.Malloc
import Saynaa.Sys.Proc

/-!
# Shared memory (`kernel/src/mem/shm.c`)

An object's frames are listed in an array on the kernel heap, whose contents the model keeps with the object.
`none` is a kernel abort, or running out of fuel in `kmalloc`.
-/

namespace Saynaa

/-- `SHM_MAX_OBJECTS`. -/
def shmMaxObjects : ℕ := 64

/-- `shm_obj_t`; `pages` is what the array `pages_phys` holds. -/
structure ShmObj where
  id : ℕ
  sizeBytes : ℕ
  numPages : ℕ
  pagesPhys : ℕ
  pages : List ℕ
  refcount : ℕ

/-- `(shm_obj_t) {0}`. -/
def ShmObj.zero : ShmObj := ⟨0, 0, 0, 0, [], 0⟩

/-- The elements of `pages_phys` that the loops over `num_pages` read. -/
def ShmObj.frames (o : ShmObj) : List ℕ := o.pages.take o.numPages

/-- The globals, with the allocators and the page tables they are used with. -/
structure Shm where
  objs : Fin shmMaxObjects → ShmObj
  nextId : ℕ
  heap : Heap
  machine : Machine

/-- `pmm_free_page` of each address. -/
def Pmm.freeAll (p : Pmm) (l : List ℕ) : Pmm := l.foldl Pmm.pmmFreePage p

/-- The loop that takes frames for an object. When the allocator has no more, the inner `none`, the
frames taken before are freed. -/
def Pmm.allocFrames (p : Pmm) (taken : List ℕ) : ℕ → Option (Option (List ℕ) × Pmm)
  | 0 => some (some taken, p)
  | k + 1 => do
    let (phys, p) ← p.pmmAllocPage
    if phys = 0 then return (none, p.freeAll taken) else p.allocFrames (taken ++ [phys]) k

/-- Iterations from `i` on of the loop of `shm_map`; `false` is the early `return NULL`. -/
def Machine.shmMapLoop (m : Machine) (base : ℕ) : ℕ → List ℕ → Option (Bool × Machine)
  | _, [] => some (true, m)
  | i, phys :: rest => do
    let (p, m) ← m.pagingGetPage (add32 base (i * 0x1000)) true (pageRw ||| pageUser)
    match p with
    | none => return (false, m)
    | some p =>
      if present (m.load p) then return (false, m)
      else
        let e := (BitVec.ofNat 32 phys &&& pageFrame) ||| pagePresent ||| pageRw ||| pageUser
        (m.store p e).shmMapLoop base (i + 1) rest

namespace Shm

/-- `shm_find`. -/
def find (s : Shm) (id : ℕ) : Option (Fin shmMaxObjects) :=
  (List.finRange shmMaxObjects).find? fun i => (s.objs i).id = id

/-- `shm_alloc_slot`. -/
def allocSlot (s : Shm) : Option (Fin shmMaxObjects) := (List.finRange shmMaxObjects).find? fun i => (s.objs i).id = 0

def setObj (s : Shm) (i : Fin shmMaxObjects) (o : ShmObj) : Shm := { s with objs := Function.update s.objs i o }

/-- `shm_next_id++`, twice where it gives 0: the id and the next one. -/
def newId (s : Shm) : ℕ × ℕ :=
  if s.nextId = 0 then (add32 s.nextId 1, add32 (add32 s.nextId 1) 1) else (s.nextId, add32 s.nextId 1)

/-- `shm_create`: the id, or `none` for `-1`. `hasOut` says that `out_id` is not `NULL`. -/
def shmCreate (fuel : ℕ) (s : Shm) (hasOut : Bool) (sizeBytes : ℕ) : Option (Option ℕ × Shm) :=
  if hasOut = false ∨ sizeBytes = 0 then some (none, s)
  else
    match s.allocSlot with
    | none => some (none, s)
    | some slot => do
      let numPages := divideUp sizeBytes 0x1000
      let (pages, heap) ← (← s.heap.kmalloc fuel (4 * numPages))
      let s := { s with heap := heap }
      if pages = 0 then return (none, s)
      else
        let (frames, pmm) ← s.machine.pmm.allocFrames [] numPages
        let s := { s with machine := s.machine.withPmm pmm }
        match frames with
        | none => return (none, { s with heap := s.heap.kfree pages })
        | some frames =>
          let (id, nextId) := s.newId
          return (some id, { s with nextId := nextId }.setObj slot ⟨id, sizeBytes, numPages, pages, frames, 1⟩)

/-- `shm_map` by the process `p`, whose directory is the current one; the inner `none` is `NULL`. -/
def shmMap (s : Shm) (p : Process) (id : ℕ) : Option (Option ℕ × Shm × Process) :=
  match s.find id with
  | none => some (none, s, p)
  | some i =>
    let obj := s.objs i
    if obj.id = 0 ∨ obj.numPages = 0 ∨ obj.pagesPhys = 0 then some (none, s, p)
    else do
      let next := if p.shmNextVirt = 0 then 0xB0000000 else p.shmNextVirt
      let p := { p with shmNextVirt := next }
      let bytes := obj.numPages * 0x1000 % 2 ^ 32
      let base := alignTo (sub32 next bytes) 0x1000
      let (ok, m) ← s.machine.shmMapLoop base 0 obj.frames
      let s := { s with machine := m }
      if ok then
        return (some base, s.setObj i { obj with refcount := add32 obj.refcount 1 }, { p with shmNextVirt := base })
      else return (none, s, p)

/-- `shm_close`; `false` is `-1`. -/
def shmClose (s : Shm) (id : ℕ) : Bool × Shm :=
  match s.find id with
  | none => (false, s)
  | some i =>
    if (s.objs i).id = 0 then (false, s)
    else
      let obj := { s.objs i with refcount := (s.objs i).refcount - 1 }
      if obj.refcount = 0 then
        let s :=
          if obj.pagesPhys ≠ 0 then
            { s with
              machine := s.machine.withPmm (s.machine.pmm.freeAll (obj.frames.filter (· ≠ 0)))
              heap := s.heap.kfree obj.pagesPhys }
          else s
        (true, s.setObj i .zero)
      else (true, s.setObj i obj)

end Shm

end Saynaa
