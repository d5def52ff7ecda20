import Mathlib.Data.List.Basic
import RyFi.Lib.Loop

/-! # Packets and frames

`Packet` (packet.h) and `Frame` (frame.h) with their byte layouts.  A packet is its
content; the bound the constructors check is a field, so a packet that does not fit its
16-bit length cannot be built.  A frame carries exactly `FRAME_DATA_SIZE` content bytes.
-/

namespace RyFi.Modem

/-! ## Reed-Solomon block sizes (rs_codec.h) that fix the frame size -/

/-- Size of an encoded reed-solomon block. -/
def RS_BLOCK_ENC_SIZE : Nat := 255

/-- Size of a decoded reed-solomon block. -/
def RS_BLOCK_DEC_SIZE : Nat := 223

/-- Number of reed-solomon blocks. -/
def RS_BLOCK_COUNT : Nat := 4

/-! ## Packets -/

/-- Maximum size of the content of the packet. -/
def MAX_CONTENT_SIZE : Nat := 0xFFFF

/-- A RyFi protocol packet. -/
structure Packet where
  content : List UInt8
  size_le : content.length ≤ MAX_CONTENT_SIZE
deriving DecidableEq

namespace Packet

/-- The default constructor. -/
def empty : Packet := ⟨[], Nat.zero_le _⟩

/-- `Packet(content, size)`; `none` is the `runtime_error` of an oversized content. -/
def create? (content : List UInt8) : Option Packet :=
  if h : content.length ≤ MAX_CONTENT_SIZE then some ⟨content, h⟩ else none

theorem create?_of_le {l : List UInt8} (hl : l.length ≤ MAX_CONTENT_SIZE) :
    create? l = some ⟨l, hl⟩ :=
  dif_pos hl

theorem create?_of_gt {l : List UInt8} (hl : MAX_CONTENT_SIZE < l.length) : create? l = none :=
  dif_neg (Nat.not_le_of_gt hl)

def size (p : Packet) : Nat := p.content.length

/-- `operator bool`. -/
def toBool (p : Packet) : Bool := decide (p.size > 0)

/-- Two size bytes + size of the content. -/
def serializedSize (p : Packet) : Nat := p.size + 2

/-- The bytes `serialize` writes: the size in big-endian, then the content. -/
def serialize (p : Packet) : List UInt8 :=
  UInt8.ofNat ((p.size >>> 8) &&& 0xFF) :: UInt8.ofNat (p.size &&& 0xFF) :: p.content

@[simp] theorem serialize_length (p : Packet) : p.serialize.length = p.serializedSize := rfl

@[simp] theorem empty_toBool : empty.toBool = false := rfl

theorem size_lt (p : Packet) : p.size < 65536 :=
  Nat.lt_succ_of_le p.size_le

@[ext] theorem ext {p q : Packet} (h : p.content = q.content) : p = q := by
  cases p; cases q; cases h; rfl

end Packet

/-! ## Frames -/

/-- `PacketOffset::PKT_OFFS_NONE`. -/
def PKT_OFFS_NONE : UInt16 := 0xFFFF

/-- Size of a serialized frame. -/
def FRAME_SIZE : Nat := RS_BLOCK_DEC_SIZE * RS_BLOCK_COUNT

/-- Size of the data area of the frame. -/
def FRAME_DATA_SIZE : Nat := FRAME_SIZE - 6

structure Frame where
  /-- Steadily increasing counter. -/
  counter : UInt16
  /-- Byte offset of the first packet in the frame. -/
  firstPacket : UInt16
  /-- Byte offset of the last packet in the frame. -/
  lastPacket : UInt16
  /-- Data area of the frame. -/
  content : Vector UInt8 FRAME_DATA_SIZE
deriving DecidableEq

namespace Frame

/-- A read of `frame.content[i]`.  Past the array the value is whatever memory holds there. -/
def contentAt (f : Frame) (beyond : Nat → UInt8) (i : Nat) : UInt8 :=
  if h : i < FRAME_DATA_SIZE then f.content[i] else beyond i

/-- The high byte of a 16-bit field, `(x >> 8) & 0xFF`. -/
def highByte (x : UInt16) : UInt8 := ((x >>> 8) &&& 0xFF).toUInt8

/-- The low byte of a 16-bit field, `x & 0xFF`. -/
def lowByte (x : UInt16) : UInt8 := (x &&& 0xFF).toUInt8

/-- `(((uint16_t)hi) << 8) | ((uint16_t)lo)`. -/
def word (hi lo : UInt8) : UInt16 := (hi.toUInt16 <<< 8) ||| lo.toUInt16

/-- The bytes `serialize` writes; it returns their number, `FRAME_SIZE`. -/
def serialize (f : Frame) : List UInt8 :=
  [highByte f.counter, lowByte f.counter, highByte f.firstPacket, lowByte f.firstPacket,
    highByte f.lastPacket, lowByte f.lastPacket] ++ f.content.toList

/-- `deserialize` of the memory at `bytes`. -/
def deserialize (bytes : List UInt8) : Frame where
  counter := word (bytes.getD 0 0) (bytes.getD 1 0)
  firstPacket := word (bytes.getD 2 0) (bytes.getD 3 0)
  lastPacket := word (bytes.getD 4 0) (bytes.getD 5 0)
  content := Vector.ofFn fun i => bytes.getD (6 + i.val) 0

@[simp] theorem serialize_length (f : Frame) : f.serialize.length = FRAME_SIZE := by
  have hlen : f.content.toList.length = FRAME_DATA_SIZE := Vector.length_toList
  rw [serialize, List.length_append, hlen]
  rfl

/-- `word` reads a big-endian pair of bytes. -/
theorem word_toNat (hi lo : UInt8) : (word hi lo).toNat = hi.toNat * 256 + lo.toNat := by
  have hhi := hi.toNat_lt
  have hlo := lo.toNat_lt
  have hshift : (8 : UInt16).toNat % 16 = 8 := rfl
  simp only [word, UInt16.toNat_or, UInt16.toNat_shiftLeft, UInt8.toNat_toUInt16]
  rw [hshift, Nat.shiftLeft_eq, Nat.mod_eq_of_lt (a := _ * _) (by omega), ← Nat.shiftLeft_eq,
    ← Nat.shiftLeft_add_eq_or_of_lt (by omega), Nat.shiftLeft_eq]

theorem highByte_toNat (x : UInt16) : (highByte x).toNat = x.toNat / 256 := by
  have hx := x.toNat_lt
  have hmask : (255 : UInt16).toNat = 2 ^ 8 - 1 := rfl
  have hshift : (8 : UInt16).toNat % 16 = 8 := rfl
  simp only [highByte, UInt16.toNat_toUInt8, UInt16.toNat_and, UInt16.toNat_shiftRight]
  rw [hmask, hshift, Nat.and_two_pow_sub_one_eq_mod, Nat.shiftRight_eq_div_pow]
  omega

theorem lowByte_toNat (x : UInt16) : (lowByte x).toNat = x.toNat % 256 := by
  have hmask : (255 : UInt16).toNat = 2 ^ 8 - 1 := rfl
  simp only [lowByte, UInt16.toNat_toUInt8, UInt16.toNat_and]
  rw [hmask, Nat.and_two_pow_sub_one_eq_mod]
  omega

theorem word_bytes (x : UInt16) : word (highByte x) (lowByte x) = x := by
  apply UInt16.toNat_inj.mp
  rw [word_toNat, highByte_toNat, lowByte_toNat]
  omega

/-- A frame survives its serialization. -/
theorem deserialize_serialize (f : Frame) : deserialize f.serialize = f := by
  have hcontent : ∀ i : Fin FRAME_DATA_SIZE,
      f.serialize.getD (6 + i.val) 0 = f.content[i.val] := by
    intro i
    have hlen : f.content.toList.length = FRAME_DATA_SIZE := Vector.length_toList
    have hi : i.val < f.content.toList.length := by rw [hlen]; exact i.isLt
    rw [serialize, List.getD_eq_getElem?_getD, List.getElem?_append_right (by simp)]
    simp
  obtain ⟨counter, firstPacket, lastPacket, content⟩ := f
  simp only [deserialize, mk.injEq]
  refine ⟨word_bytes counter, word_bytes firstPacket, word_bytes lastPacket, ?_⟩
  apply Vector.ext
  intro i hi
  rw [Vector.getElem_ofFn]
  exact hcontent ⟨i, hi⟩

end Frame

end RyFi.Modem
