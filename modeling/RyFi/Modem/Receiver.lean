import RyFi.Modem.Frame

/-! # The receiver's packet extraction

`Receiver::worker` (receiver.cpp).  Reads of `frame.content` past the array return what
memory holds there, given by a function `beyond`; every access of `frame.content` and of
`pktBuffer` is recorded in the ghost field `accesses`.
-/

namespace RyFi.Modem

open CLoop

/-- Ghost: `length` bytes accessed from `offset` on. -/
inductive Access where
  | content (offset length : Nat)
  | pktBuffer (offset length : Nat)
deriving DecidableEq

/-- Every index of the access lies in its array. -/
def Access.InBounds : Access → Prop
  | .content offset length => ∀ i, i < length → offset + i < FRAME_DATA_SIZE
  | .pktBuffer offset length => ∀ i, i < length → offset + i < MAX_CONTENT_SIZE

/-- The variables of `worker` that live across frames.  `pktExpected`, an `int` of the
    source, only ever holds 0 or a 16-bit size field. -/
structure Receiver where
  lastCounter : UInt16
  pktBuffer : Nat → UInt8
  pktExpected : UInt16
  pktRead : Nat

/-- The variables of the extraction loop. -/
structure Extract where
  pktBuffer : Nat → UInt8
  pktExpected : UInt16
  pktRead : Nat
  frameRead : Nat
  firstPacket : Bool
  lastPacket : Bool
  /-- The packets handed to `onPacket` so far. -/
  delivered : List Packet
  /-- Ghost: the accesses so far. -/
  accesses : List Access

namespace Extract

/-- `Packet pkt(pktBuffer, pktExpected)`, which cannot throw for a 16-bit size. -/
def packet (pktBuffer : Nat → UInt8) (pktExpected : UInt16) : Packet where
  content := (List.range pktExpected.toNat).map pktBuffer
  size_le := by
    have := pktExpected.toNat_lt
    simp [MAX_CONTENT_SIZE]
    omega

/-- There is a partial packet: read as much as possible from it. -/
def readPacket (frame : Frame) (beyond : Nat → UInt8) (s : Extract) : Extract :=
  let readable := min (s.pktExpected.toNat - s.pktRead) (FRAME_DATA_SIZE - s.frameRead)
  let s := { s with
    pktBuffer := copyRange s.pktBuffer s.pktRead (frame.contentAt beyond) s.frameRead readable
    accesses := s.accesses ++ [.content s.frameRead readable, .pktBuffer s.pktRead readable]
    pktRead := s.pktRead + readable
    frameRead := s.frameRead + readable }
  -- If the packet is read entirely
  if s.pktRead ≥ s.pktExpected.toNat then
    let s := { s with
      delivered := s.delivered ++ [packet s.pktBuffer s.pktExpected]
      accesses := s.accesses ++ [.pktBuffer 0 s.pktExpected.toNat]
      pktRead := 0
      pktExpected := 0 }
    -- If this was the last packet of the frame, skip the rest of the frame
    if s.lastPacket ∨ frame.firstPacket = PKT_OFFS_NONE then { s with frameRead := FRAME_DATA_SIZE }
    else s
  else s

/-- There is no partial packet: parse the size of the next one. -/
def readSize (frame : Frame) (beyond : Nat → UInt8) (s : Extract) : Extract :=
  -- If the packet offset is not plausible, skip the rest of the frame and the packet
  if FRAME_DATA_SIZE - s.frameRead < 2 then
    { s with frameRead := FRAME_DATA_SIZE, pktExpected := 0, pktRead := 0 }
  else
    -- If this is the first packet, use the frame info to skip possible left over data
    let frameRead := if s.firstPacket then frame.firstPacket.toNat else s.frameRead
    { s with
      firstPacket := false
      lastPacket := frameRead == frame.lastPacket.toNat
      pktExpected :=
        Frame.word (frame.contentAt beyond frameRead) (frame.contentAt beyond (frameRead + 1))
      accesses := s.accesses ++ [.content frameRead 1, .content (frameRead + 1) 1]
      frameRead := frameRead + 2 }

/-- One iteration of the extraction loop. -/
def step (frame : Frame) (beyond : Nat → UInt8) (s : Extract) : Extract :=
  if s.pktExpected ≠ 0 then s.readPacket frame beyond else s.readSize frame beyond

def running (s : Extract) : Bool := decide (s.frameRead < FRAME_DATA_SIZE)

/-- The jump to the first packet happens once; otherwise `frameRead` grows, or a packet
    ends. -/
def variant (s : Extract) : Nat :=
  (if s.firstPacket then 2 * FRAME_DATA_SIZE else 0) + 2 * (FRAME_DATA_SIZE - s.frameRead) +
    (if s.pktExpected ≠ 0 then 1 else 0)

/-- `while (frameRead < Frame::FRAME_DATA_SIZE)`. -/
def loop (frame : Frame) (beyond : Nat → UInt8) (s : Extract) : Extract :=
  whileVariant running (step frame beyond) variant s

end Extract

/-- What one frame makes the worker do. -/
structure Outcome where
  receiver : Receiver
  delivered : List Packet
  accesses : List Access

namespace Receiver

/-- The worker at its start; the packet buffer is not initialized. -/
def init (pktBuffer : Nat → UInt8) : Receiver where
  lastCounter := 0
  pktBuffer := pktBuffer
  pktExpected := 0
  pktRead := 0

/-- Extract packets from the frame, starting to read at `frameRead`. -/
def extract (frame : Frame) (beyond : Nat → UInt8) (r : Receiver) (frameRead : Nat) : Outcome :=
  let s := Extract.loop frame beyond
    { pktBuffer := r.pktBuffer, pktExpected := r.pktExpected, pktRead := r.pktRead,
      frameRead := frameRead, firstPacket := true, lastPacket := false,
      delivered := [], accesses := [] }
  ⟨⟨r.lastCounter, s.pktBuffer, s.pktExpected, s.pktRead⟩, s.delivered, s.accesses⟩

/-- One round of the worker: the handling of one deserialized frame. -/
def onFrame (frame : Frame) (beyond : Nat → UInt8) (r : Receiver) : Outcome :=
  -- Compute the expected frame counter
  let expectedCounter := r.lastCounter + 1
  let r := { r with lastCounter := frame.counter }
  if frame.counter ≠ expectedCounter then
    -- The frames aren't consecutive: cancel the partial packet if there was one
    let r := { r with pktExpected := 0, pktRead := 0 }
    if frame.firstPacket ≠ PKT_OFFS_NONE then
      -- If the offset of the first packet is not plausible, skip the frame
      if frame.firstPacket.toNat > FRAME_DATA_SIZE - 2 then ⟨r, [], []⟩
      -- Skip to the end of the packet
      else extract frame beyond r frame.firstPacket.toNat
    -- No partial packet and no packet start: skip the frame
    else ⟨r, [], []⟩
  else if r.pktExpected = 0 ∧ frame.firstPacket = PKT_OFFS_NONE then ⟨r, [], []⟩
  else extract frame beyond r 0

/-- A run of the worker over frames, each with what memory holds past its content. -/
def run (r : Receiver) (frames : List (Frame × (Nat → UInt8))) : Outcome :=
  frames.foldl (fun out fb =>
    let next := out.receiver.onFrame fb.1 fb.2
    ⟨next.receiver, out.delivered ++ next.delivered, out.accesses ++ next.accesses⟩)
    ⟨r, [], []⟩

/-- The states the worker can reach. -/
def Reachable (r : Receiver) : Prop :=
  ∃ pktBuffer frames, ((init pktBuffer).run frames).receiver = r

end Receiver

end RyFi.Modem
