import Saynaa.Lib.Bytes
import Saynaa.Sys.Files

/-!
# `cat` (`userspace/src/cat.c`)

`main` as a program that makes system calls. `puts` writes the text, which is not empty here, and the end of
the line. What the buffer holds at first is a parameter.
-/

namespace Saynaa

open Lib

/-- `sizeof(buf)`. -/
def catBufSize : ℕ := 512

/-- Where `main` is. -/
inductive Cat where
  | opening (path : Name)
  | reading (fd : ℤ) (buf : ℕ → UInt8)
  | writing (fd : ℤ) (buf : ℕ → UInt8) (n : ℕ)
  | newline (fd : ℤ) (rc : ℕ)
  | closing (fd : ℤ) (rc : ℕ)
  | puts (text : List UInt8)
  | putsNewline
  | done (rc : ℕ)

/-- `"cat: missing file"`. -/
def catMissing : List UInt8 := [99, 97, 116, 58, 32, 109, 105, 115, 115, 105, 110, 103, 32, 102, 105, 108, 101]

/-- `"cat: bad path"`. -/
def catBadPath : List UInt8 := [99, 97, 116, 58, 32, 98, 97, 100, 32, 112, 97, 116, 104]

/-- `"cat: open failed"`. -/
def catOpenFailed : List UInt8 := [99, 97, 116, 58, 32, 111, 112, 101, 110, 32, 102, 97, 105, 108, 101, 100]

/-- The start of `main`, with the result of `make_abs_path`. -/
def Cat.main (argc : ℕ) (path : Option Name) : Cat :=
  if argc < 2 then .puts catMissing
  else
    match path with
    | none => .puts catBadPath
    | some path => .opening path

def Cat.next : Cat → Option FileCall
  | .opening path => some (.open (some path) oRdonly)
  | .reading fd buf => some (.read fd (some buf) catBufSize)
  | .writing _ buf n => some (.write 1 (some (copyOut buf 0 n)))
  | .newline _ _ => some (.write 1 (some [byteNl]))
  | .closing fd _ => some (.close fd)
  | .puts text => some (.write 1 (some text))
  | .putsNewline => some (.write 1 (some [byteNl]))
  | .done _ => none

def Cat.after (buf₀ : ℕ → UInt8) : Cat → FileAnswer → Cat
  | .opening _, a => if a.eax < 0 then .puts catOpenFailed else .reading a.eax buf₀
  | .reading fd buf, a =>
    if a.eax < 0 then .newline fd 1
    else if a.eax = 0 then .newline fd 0
    else .writing fd (a.buffer.getD buf) a.eax.toNat
  | .writing fd buf n, _ => if n < catBufSize then .newline fd 0 else .reading fd buf
  | .newline fd rc, _ => .closing fd rc
  | .closing _ rc, _ => .done rc
  | .puts _, _ => .putsNewline
  | .putsNewline, _ => .done 1
  | .done rc, _ => .done rc

def cat (buf₀ : ℕ → UInt8) : Program Cat FileCall FileAnswer := ⟨Cat.next, Cat.after buf₀⟩

end Saynaa
