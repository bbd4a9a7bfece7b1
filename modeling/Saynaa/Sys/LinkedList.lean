import Mathlib.Tactic

/-!
# Linked lists (`kernel/src/utils/linkedlist.c`, `kernel/include/utils/linkedlist.h`)

The nodes are a heap indexed by address. Reading or writing an address that holds nothing (`NULL`, or a node after
`kfree`) is a fault, and so is running out of `fuel`, which the loops take: both give `none`. The addresses that
`kmalloc` returns are arguments.
-/

namespace Saynaa

/-- `list_t`. -/
structure ListNode where
  data : ℕ
  next : ℕ
  prev : ℕ

/-- The nodes in memory. -/
abbrev ListHeap := ℕ → Option ListNode

namespace ListHeap

def dataOf (h : ListHeap) (a : ℕ) : Option ℕ := (h a).map ListNode.data

def nextOf (h : ListHeap) (a : ℕ) : Option ℕ := (h a).map ListNode.next

def prevOf (h : ListHeap) (a : ℕ) : Option ℕ := (h a).map ListNode.prev

/-- `a->next = v`. -/
def setNext (h : ListHeap) (a v : ℕ) : Option ListHeap :=
  (h a).map fun n => Function.update h a (some { n with next := v })

/-- `a->prev = v`. -/
def setPrev (h : ListHeap) (a v : ℕ) : Option ListHeap :=
  (h a).map fun n => Function.update h a (some { n with prev := v })

end ListHeap

/-- `list_node_new`, where `kmalloc` returns `new`. -/
def listNodeNew (h : ListHeap) (data new : ℕ) : ℕ × ListHeap :=
  if new = 0 then (0, h) else (new, Function.update h new (some ⟨data, 0, 0⟩))

/-- `list_empty`. -/
def listEmpty (h : ListHeap) (list : ℕ) : Option Bool := (h.nextOf list).map fun n => decide (list = n)

/-- `__list_add`. -/
def listAddBetween (h : ListHeap) (new prev next : ℕ) : Option ListHeap := do
  let h ← h.setPrev next new
  let h ← h.setNext new next
  let h ← h.setPrev new prev
  h.setNext prev new

/-- `list_add`. -/
def listAdd (h : ListHeap) (list data new : ℕ) : Option (ℕ × ListHeap) := do
  let (new, h) := listNodeNew h data new
  if new = 0 then return (0, h)
  let h ← listAddBetween h new (← h.prevOf list) list
  return (list, h)

/-- `list_add_front`. -/
def listAddFront (h : ListHeap) (list data new : ℕ) : Option (ℕ × ListHeap) := do
  let (new, h) := listNodeNew h data new
  if new = 0 then return (0, h)
  let h ← listAddBetween h new list (← h.nextOf list)
  return (list, h)

/-- `__list_del`. -/
def listDelBetween (h : ListHeap) (prev next : ℕ) : Option ListHeap := do
  let h ← h.setPrev next prev
  h.setNext prev next

/-- `list_del`. -/
def listDel (h : ListHeap) (entry : ℕ) : Option ListHeap := do
  let h ← listDelBetween h (← h.prevOf entry) (← h.nextOf entry)
  let h ← h.setNext entry 0
  let h ← h.setPrev entry 0
  return Function.update h entry none

/-- `list_splice`. -/
def listSplice (h : ListHeap) (list head : ℕ) : Option ListHeap := do
  let first ← h.nextOf list
  if first ≠ list then
    let last ← h.prevOf list
    let after ← h.nextOf head
    let h ← h.setPrev first head
    let h ← h.setNext head first
    let h ← h.setNext last after
    h.setPrev after last
  else return h

/-- `list_move`. -/
def listMove (h : ListHeap) (list head new : ℕ) : Option ListHeap := do
  let (_, h) ← listAddFront h head (← h.dataOf list) new
  listDel h list

/-! ### Iteration -/

/-- The loop of `list_for_each` and of `list_for_each_entry_rev`, along a link: each `iter` with its `pos`. -/
def forEachLoop (h : ListHeap) (link : ListNode → ℕ) (list : ℕ) : ℕ → ℕ → Option (List (ℕ × ℕ))
  | 0, _ => none
  | fuel + 1, iter => do
    let n ← h iter
    if iter = list then return []
    let rest ← forEachLoop h link list fuel (link n)
    return (iter, n.data) :: rest

/-- `list_for_each`. -/
def listForEach (h : ListHeap) (list fuel : ℕ) : Option (List (ℕ × ℕ)) := do
  forEachLoop h ListNode.next list fuel (← h.nextOf list)

/-- `list_for_each_entry_rev`. -/
def listForEachEntryRev (h : ListHeap) (list fuel : ℕ) : Option (List (ℕ × ℕ)) := do
  forEachLoop h ListNode.prev list fuel (← h.prevOf list)

/-- The loop of `list_for_each_safe`: `n` is read before the body runs. -/
def forEachSafeLoop (h : ListHeap) (list : ℕ) : ℕ → ℕ → ℕ → Option (List ℕ)
  | 0, _, _ => none
  | fuel + 1, iter, n => do
    if iter = list then return []
    let rest ← forEachSafeLoop h list fuel n (← h.nextOf n)
    return iter :: rest

/-- `list_for_each_safe`. -/
def listForEachSafe (h : ListHeap) (list fuel : ℕ) : Option (List ℕ) := do
  let iter ← h.nextOf list
  forEachSafeLoop h list fuel iter (← h.nextOf iter)

/-! ### Requests -/

/-- A call; `new` is the address that `kmalloc` returns. -/
inductive ListOp where
  | add (list data new : ℕ)
  | addFront (list data new : ℕ)
  | del (entry : ℕ)
  | move (list head new : ℕ)
  | splice (list head : ℕ)

/-- The nodes behind a call. -/
def ListOp.run (h : ListHeap) : ListOp → Option ListHeap
  | .add list data new => (listAdd h list data new).map Prod.snd
  | .addFront list data new => (listAddFront h list data new).map Prod.snd
  | .del entry => listDel h entry
  | .move list head new => listMove h list head new
  | .splice list head => listSplice h list head

/-- The nodes behind some calls. -/
def ListOp.runAll (h : ListHeap) : List ListOp → Option ListHeap
  | [] => some h
  | op :: ops => do runAll (← op.run h) ops

end Saynaa
