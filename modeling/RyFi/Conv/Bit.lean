import RyFi.Lib.Loop
import Mathlib.Algebra.Group.Nat.Defs

/-! # Bit writer and bit reader

`bit_writer_t` and `bit_reader_t` (bit.c).  The byte buffers are memories `Nat → UInt8`.
-/

namespace RyFi.Conv

open CLoop

/-! ## Writer -/

structure BitWriter where
  currentByte : UInt8
  currentByteLen : Nat
  bytes : Nat → UInt8
  byteIndex : Nat
  len : Nat

namespace BitWriter

/-- `bit_writer_reconfigure`. -/
def reconfigure (bytes : Nat → UInt8) (len : Nat) : BitWriter where
  currentByte := 0
  currentByteLen := 0
  bytes := bytes
  byteIndex := 0
  len := len

/-- `bit_writer_write_1`. -/
def write1 (w : BitWriter) (val : UInt8) : BitWriter :=
  let w := { w with
    currentByte := w.currentByte ||| (val &&& 1)
    currentByteLen := w.currentByteLen + 1 }
  if w.currentByteLen = 8 then
    -- 8 bits in a byte: move to the next byte
    { w with
      bytes := Function.update w.bytes w.byteIndex w.currentByte
      byteIndex := w.byteIndex + 1
      currentByteLen := 0
      currentByte := 0 }
  else { w with currentByte := w.currentByte <<< 1 }

/-- `bit_writer_write`: the low `n` bits of `val`, lowest first. -/
def write (w : BitWriter) (val : UInt8) (n : Nat) : BitWriter :=
  (forLoop 0 n (fun _ (s : BitWriter × UInt8) => (s.1.write1 s.2, s.2 >>> 1)) (w, val)).1

/-- `b |= l[i]; b <<= 1` for the first `n` entries of `l`. -/
def pushUp (l : Nat → UInt8) (n : Nat) (b : UInt16) : UInt16 :=
  forLoop 0 n (fun i b => (b ||| (l i).toUInt16) <<< 1) b

/-- `l[0] << 7 | l[1] << 6 | … | l[7]`. -/
def packUp (l : Nat → UInt8) : UInt8 :=
  (l 0 <<< 7) ||| (l 1 <<< 6) ||| (l 2 <<< 5) ||| (l 3 <<< 4) ||| (l 4 <<< 3) ||| (l 5 <<< 2) |||
    (l 6 <<< 1) ||| l 7

/-- `bit_writer_write_bitlist`. -/
def writeBitlist (w : BitWriter) (l : Nat → UInt8) (len : Nat) : BitWriter :=
  -- we might have been given too few elements to close the current byte
  let closeLen := min (8 - w.currentByteLen) len
  let b := pushUp l closeLen w.currentByte.toUInt16
  if w.currentByteLen + closeLen = 8 then
    let fullBytes := (len - closeLen) / 8
    let rest := len - closeLen - 8 * fullBytes
    { w with
      bytes := forLoop 0 fullBytes (fun i bytes =>
          Function.update bytes (w.byteIndex + 1 + i)
            (packUp fun j => l (closeLen + 8 * i + j)))
        (Function.update w.bytes w.byteIndex (b >>> 1).toUInt8)
      byteIndex := w.byteIndex + 1 + fullBytes
      currentByte := (pushUp (fun j => l (closeLen + 8 * fullBytes + j)) rest 0).toUInt8
      currentByteLen := rest }
  else { w with currentByte := b.toUInt8, currentByteLen := w.currentByteLen + closeLen }

/-- `b |= l[k]; b <<= 1` for the `n` entries of `l` from `top` downwards. -/
def pushDown (l : Nat → UInt8) (top n : Nat) (b : UInt16) : UInt16 :=
  forLoop 0 n (fun i b => (b ||| (l (top - i)).toUInt16) <<< 1) b

/-- `l[0] << 7 | l[-1] << 6 | … | l[-7]` at `l = &list[top]`. -/
def packDown (l : Nat → UInt8) (top : Nat) : UInt8 :=
  (l top <<< 7) ||| (l (top - 1) <<< 6) ||| (l (top - 2) <<< 5) ||| (l (top - 3) <<< 4) |||
    (l (top - 4) <<< 3) ||| (l (top - 5) <<< 2) ||| (l (top - 6) <<< 1) ||| l (top - 7)

/-- `bit_writer_write_bitlist_reversed` once the current byte is closed: whole bytes, then
    the rest, of the first `len` entries of `l` from the last one downwards. -/
def writeBytesReversed (w : BitWriter) (bytes : Nat → UInt8) (byteIndex : Nat)
    (l : Nat → UInt8) (len : Nat) : BitWriter :=
  let fullBytes := len / 8
  let rest := len - 8 * fullBytes
  { w with
    bytes := forLoop 0 fullBytes (fun i bytes =>
      Function.update bytes (byteIndex + i) (packDown l (len - 1 - 8 * i))) bytes
    byteIndex := byteIndex + fullBytes
    currentByte := (pushDown l (rest - 1) rest 0).toUInt8
    currentByteLen := rest }

/-- `bit_writer_write_bitlist_reversed`. -/
def writeBitlistReversed (w : BitWriter) (l : Nat → UInt8) (len : Nat) : BitWriter :=
  if w.currentByteLen ≠ 0 then
    let closeLen := min (8 - w.currentByteLen) len
    let b := pushDown l (len - 1) closeLen w.currentByte.toUInt16
    if w.currentByteLen + closeLen = 8 then
      w.writeBytesReversed (Function.update w.bytes w.byteIndex (b >>> 1).toUInt8)
        (w.byteIndex + 1) l (len - closeLen)
    else { w with currentByte := b.toUInt8, currentByteLen := w.currentByteLen + closeLen }
  else w.writeBytesReversed w.bytes w.byteIndex l len

/-- `bit_writer_flush_byte`. -/
def flushByte (w : BitWriter) : BitWriter :=
  if w.currentByteLen ≠ 0 then
    let currentByte := w.currentByte <<< UInt8.ofNat (8 - w.currentByteLen)
    { w with
      currentByte := currentByte
      bytes := Function.update w.bytes w.byteIndex currentByte
      byteIndex := w.byteIndex + 1
      currentByteLen := 0 }
  else w

/-- `bit_writer_length`. -/
def length (w : BitWriter) : Nat := w.byteIndex

end BitWriter

/-! ## Reader -/

def reverseByte (b : UInt8) : UInt8 :=
  ((b &&& 0x80) >>> 7) ||| ((b &&& 0x40) >>> 5) ||| ((b &&& 0x20) >>> 3) |||
    ((b &&& 0x10) >>> 1) ||| ((b &&& 0x08) <<< 1) ||| ((b &&& 0x04) <<< 3) |||
    ((b &&& 0x02) <<< 5) ||| ((b &&& 0x01) <<< 7)

structure BitReader where
  currentByte : UInt8
  byteIndex : Nat
  len : Nat
  currentByteLen : Nat
  bytes : Nat → UInt8

namespace BitReader

/-- `bit_reader_reconfigure`. -/
def reconfigure (bytes : Nat → UInt8) (len : Nat) : BitReader where
  currentByte := bytes 0
  byteIndex := 0
  len := len
  currentByteLen := 8
  bytes := bytes

/-- The bits `n` of the current byte below its first `currentByteLen - n`. -/
def takeBits (r : BitReader) (n : Nat) : Nat :=
  (r.currentByte &&& ((UInt8.ofNat (2 ^ n - 1)) <<< UInt8.ofNat (r.currentByteLen - n))).toNat >>>
    (r.currentByteLen - n)

/-- `bit_reader_read`: the next `n` bits, first one lowest. -/
def read (r : BitReader) (n : Nat) : UInt8 × BitReader :=
  if r.currentByteLen < n then
    let read := (r.currentByte.toNat &&& (2 ^ r.currentByteLen - 1)) <<< (n - r.currentByteLen)
    let m := n - r.currentByteLen
    let r := { r with
      byteIndex := r.byteIndex + 1
      currentByte := r.bytes (r.byteIndex + 1)
      currentByteLen := 8 }
    (reverseByte (UInt8.ofNat (read ||| r.takeBits m)) >>> UInt8.ofNat (8 - n),
      { r with currentByteLen := r.currentByteLen - m })
  else
    (reverseByte (UInt8.ofNat (r.takeBits n)) >>> UInt8.ofNat (8 - n),
      { r with currentByteLen := r.currentByteLen - n })

end BitReader

end RyFi.Conv
