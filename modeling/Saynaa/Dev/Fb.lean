import Saynaa.Lib.Bytes
import Saynaa.Libc.Math

/-!
# The frame buffer device (`kernel/src/fs/dev/dev_fb.c`)

The pixel memory is a function on offsets from `fb.address`, and so is the buffer that is written. A read also
returns the bytes that it stores from `buffer` on. Results are of type `ssize_t`, the signed word.
-/

namespace Saynaa

open Lib

/-- `fb_t`, as far as the device reads it. -/
structure FbDevice where
  pitch : ℕ
  width : ℕ
  height : ℕ
  bpp : ℕ

/-- `sizeof(fbdev_info_t)`. -/
def fbdevInfoSize : ℕ := 20

namespace FbDevice

variable (fb : FbDevice)

/-- `fb0_size_bytes`. -/
def fb0SizeBytes : ℕ := if fb.pitch = 0 ∨ fb.height = 0 then 0 else fb.pitch * fb.height % 2 ^ 32

/-- The bytes of the `fbdev_info_t`. -/
def info : List UInt8 := le 4 fb.width ++ le 4 fb.height ++ le 4 fb.pitch ++ le 4 fb.bpp ++ le 4 fb.fb0SizeBytes

/-- `dev_fb0_read`. -/
def devFb0Read (pixels : ℕ → UInt8) (buffer offset size : ℕ) : ℤ × List UInt8 :=
  if buffer = 0 ∨ size = 0 then (-1, [])
  else
    let fbBytes := fb.fb0SizeBytes
    let totalSize := add32 fbdevInfoSize fbBytes
    if offset ≥ totalSize then (0, [])
    else
      let toCopy := if size > sub32 totalSize offset then sub32 totalSize offset else size
      -- the part in the header
      let (copied, bytes, offset) :=
        if offset < fbdevInfoSize ∧ 0 < toCopy then
          let hdrCan := fbdevInfoSize - offset
          let n := if toCopy < hdrCan then toCopy else hdrCan
          (n, (fb.info.drop offset).take n, offset + n)
        else (0, [], offset)
      -- the part in the pixels
      if offset ≥ fbdevInfoSize ∧ copied < toCopy then
        let fbOff := offset - fbdevInfoSize
        if fbOff ≥ fbBytes then (toInt32 copied, bytes)
        else
          let fbCan := fbBytes - fbOff
          let n := if toCopy - copied < fbCan then toCopy - copied else fbCan
          (toInt32 (copied + n), bytes ++ copyOut pixels fbOff n)
      else (toInt32 copied, bytes)

/-- `dev_fb0_write`: its result and the pixel memory. -/
def devFb0Write (pixels : ℕ → UInt8) (buffer offset size : ℕ) (data : ℕ → UInt8) : ℤ × (ℕ → UInt8) :=
  if buffer = 0 ∨ size = 0 then (-1, pixels)
  else
    let fbBytes := fb.fb0SizeBytes
    -- the header is read-only
    if offset < fbdevInfoSize then (-1, pixels)
    else
      let fbOff := offset - fbdevInfoSize
      if fbOff ≥ fbBytes then (0, pixels)
      else
        let toCopy := if size > fbBytes - fbOff then fbBytes - fbOff else size
        (toInt32 toCopy, copyIn pixels fbOff (copyOut data 0 toCopy))

end FbDevice

end Saynaa
