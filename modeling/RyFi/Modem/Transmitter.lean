import RyFi.Modem.Frame

/-! # The transmitter's packet queue and frame builder

`Transmitter::send`, `popPacket` and `worker` (transmitter.cpp).  The worker only meets the
rest of the program in `popPacket`, `rand` and `txFrame`, so a run is determined by an
`Environment`: the packets other threads offer to `send` before each pop, and the bytes
`rand` returns.  The fields marked *ghost* record what happened and are never read.
-/

namespace RyFi.Modem

open CLoop

/-! ## The packet queue -/

/-- `Transmitter::MAX_QUEUE_SIZE`. -/
def MAX_QUEUE_SIZE : Nat := 32

/-- The queue `packets`, front first. -/
structure Queue where
  packets : List Packet
  /-- Ghost: every packet `send` returned true for, oldest first. -/
  accepted : List Packet
  /-- Ghost: how many of them `popPacket` has returned. -/
  popped : Nat

namespace Queue

def empty : Queue := ⟨[], [], 0⟩

/-- `send`: false, and nothing queued, when too many packets wait. -/
def send (q : Queue) (pkt : Packet) : Bool × Queue :=
  if q.packets.length ≥ MAX_QUEUE_SIZE then (false, q)
  else (true, { q with packets := q.packets ++ [pkt], accepted := q.accepted ++ [pkt] })

/-- The calls of `send` other threads make, in order. -/
def sendAll (q : Queue) (pkts : List Packet) : Queue :=
  pkts.foldl (fun q pkt => (q.send pkt).2) q

/-- `popPacket`: the empty packet when none is available. -/
def popPacket (q : Queue) : Packet × Queue :=
  match q.packets with
  | [] => (Packet.empty, q)
  | pkt :: rest => (pkt, { q with packets := rest, popped := q.popped + 1 })

end Queue

/-! ## The worker -/

/-- What the worker meets: the packets offered to `send` before its `i`-th pop, and the
    byte its `i`-th call of `rand` stores. -/
structure Environment where
  offers : Nat → List Packet
  rand : Nat → UInt8

/-- Ghost: `length` bytes from `start` on of the serialized packet number `packet`, copied
    to `content[offset]`. -/
structure Chunk where
  offset : Nat
  packet : Nat
  start : Nat
  length : Nat
deriving DecidableEq

/-- The variables of `worker` that live across frames. -/
structure Worker where
  queue : Queue
  /-- Ghost: calls of `popPacket` so far. -/
  pops : Nat
  /-- Ghost: calls of `rand` so far. -/
  rands : Nat
  counter : UInt16
  pkt : Packet
  pktToWrite : Nat
  pktWritten : Nat
  pktBuffer : Nat → UInt8
  /-- `frame.content`, which keeps its bytes from frame to frame. -/
  content : Nat → UInt8

/-- The worker while it fills a frame. -/
structure Fill extends Worker where
  frameCounter : UInt16
  firstPacket : UInt16
  lastPacket : UInt16
  frameOffset : Nat
  /-- False once the loop was left by `break`. -/
  filling : Bool
  /-- Ghost: what was copied into the frame. -/
  chunks : List Chunk

/-- A frame handed to `txFrame`, with the record of what it carries. -/
structure SentFrame where
  frame : Frame
  chunks : List Chunk

namespace Fill

/-- `pkt = popPacket(); if (pkt) { pktToWrite = pkt.serializedSize(); pkt.serialize(pktBuffer); }` -/
def nextPacket (env : Environment) (s : Fill) : Fill :=
  let (pkt, queue) := (s.queue.sendAll (env.offers s.pops)).popPacket
  let s := { s with queue := queue, pops := s.pops + 1, pkt := pkt }
  if pkt.toBool then
    { s with
      pktToWrite := pkt.serializedSize
      pktBuffer := copyRange s.pktBuffer 0 (fun i => pkt.serialize.getD i 0) 0 pkt.serializedSize }
  else s

/-- Fill the rest of the frame with noise and leave the loop. -/
def fillNoise (env : Environment) (s : Fill) : Fill :=
  { s with
    content := copyRange s.content s.frameOffset env.rand s.rands (FRAME_DATA_SIZE - s.frameOffset)
    rands := s.rands + (FRAME_DATA_SIZE - s.frameOffset)
    filling := false }

/-- The beginning of a packet: update the packet pointers of the frame. -/
def startPacket (s : Fill) : Fill :=
  { s with
    firstPacket :=
      if s.firstPacket = PKT_OFFS_NONE then UInt16.ofNat s.frameOffset else s.firstPacket
    lastPacket := UInt16.ofNat s.frameOffset }

/-- Copy what fits of the packet to the frame. -/
def copyData (s : Fill) : Fill :=
  let writeable := min (s.pktToWrite - s.pktWritten) (FRAME_DATA_SIZE - s.frameOffset)
  let pktWritten := s.pktWritten + writeable
  let s := { s with
    content := copyRange s.content s.frameOffset s.pktBuffer s.pktWritten writeable
    chunks := s.chunks ++ [Chunk.mk s.frameOffset (s.queue.popped - 1) s.pktWritten writeable]
    frameOffset := s.frameOffset + writeable }
  if pktWritten ≥ s.pktToWrite then { s with pktToWrite := 0, pktWritten := 0 }
  else { s with pktWritten := pktWritten }

/-- One iteration of the fill loop. -/
def step (env : Environment) (s : Fill) : Fill :=
  if s.pktWritten = 0 ∧ FRAME_DATA_SIZE - s.frameOffset < 2 then s.fillNoise env
  else
    let s := if s.pktWritten = 0 then s.nextPacket env else s
    if ¬ s.pkt.toBool then s.fillNoise env
    else
      let s := if s.pktWritten = 0 then s.startPacket else s
      s.copyData

/-- The loop goes on: no `break` yet and `frameOffset < sizeof(Frame::content)`. -/
def running (s : Fill) : Bool := s.filling && decide (s.frameOffset < FRAME_DATA_SIZE)

/-- Every iteration copies a byte, drops a finished packet or leaves. -/
def variant (s : Fill) : Nat :=
  2 * (FRAME_DATA_SIZE - s.frameOffset) + (if s.pktWritten = 0 then 0 else 1) +
    (if s.filling then 1 else 0)

/-- The frame as it is handed to `txFrame`. -/
def sent (s : Fill) : SentFrame where
  frame :=
    { counter := s.frameCounter
      firstPacket := s.firstPacket
      lastPacket := s.lastPacket
      content := Vector.ofFn fun i => s.content i.val }
  chunks := s.chunks

end Fill

namespace Worker

/-- The worker at its start; the two buffers are not initialized. -/
def init (pktBuffer content : Nat → UInt8) : Worker where
  queue := Queue.empty
  pops := 0
  rands := 0
  counter := 0
  pkt := Packet.empty
  pktToWrite := 0
  pktWritten := 0
  pktBuffer := pktBuffer
  content := content

/-- Initialize the frame. -/
def beginFrame (w : Worker) : Fill where
  toWorker := { w with counter := w.counter + 1 }
  frameCounter := w.counter
  firstPacket := PKT_OFFS_NONE
  lastPacket := PKT_OFFS_NONE
  frameOffset := 0
  filling := true
  chunks := []

/-- One round of the worker: fill a frame and send it. -/
def sendFrame (env : Environment) (w : Worker) : SentFrame × Worker :=
  let s := whileVariant Fill.running (Fill.step env) Fill.variant w.beginFrame
  (s.sent, s.toWorker)

/-- The first `n` frames of a run and the worker after them. -/
def transmit (env : Environment) (w : Worker) : Nat → List SentFrame × Worker
  | 0 => ([], w)
  | n + 1 =>
    let (frames, w') := transmit env w n
    let (frame, w'') := w'.sendFrame env
    (frames ++ [frame], w'')

end Worker

end RyFi.Modem
