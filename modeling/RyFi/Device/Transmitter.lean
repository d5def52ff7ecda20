import RyFi.Lib.Loop
import RyFi.Modem.Framing

/-! # The RFNM transmitter

`RFNMTransmitter::start`, `stop` and `worker` (device/rfnm.cpp).  Of librfnm only the answers
of the calls are given (`Librfnm`).  `stop` joins the worker, which ends at its next read, so
a run is a sequence of starts, blocks read and stops.  The fields marked *ghost* record what
happened and are never read.
-/

namespace RyFi.Device

open CLoop Modem

/-- The float operations of the conversion to CS16. -/
class TxSample (F : Type) extends Mul F where
  /-- `32767.0f` and `-32768.0f`. -/
  highest : F
  lowest : F
  lt : F → F → Bool
  /-- The conversion to `int16_t`. -/
  toInt16 : F → Int16

/-- Exact samples. -/
instance : TxSample Rat where
  highest := 32767
  lowest := -32768
  lt x y := decide (x < y)
  toInt16 x := Int16.ofInt (x.num.tdiv x.den)

/-- The packet size of librfnm, whether call number `i` of `tx_dqbuf` returns `RFNM_API_OK`
    and whether it sets `b`, and whether call `i` of `tx_qbuf` returns `RFNM_API_OK`. -/
structure Librfnm where
  RFNM_USB_TX_PACKET_ELEM_CNT : Nat
  tx_dqbuf : Nat → Bool × Bool
  tx_qbuf : Nat → Bool

/-- `rfnm::tx_buf`; `buf` up to what was copied into it. -/
structure TxBuf where
  buf : List Int16
  elem_cnt : UInt32
  tx_flags : UInt32
deriving DecidableEq

/-- Ghost: a step of the worker.  `pos` is the place of the first value in the sequence of all
    values converted so far. -/
inductive Event where
  | converted (values : List Int16)
  /-- `tx_dqbuf` gave no buffer. -/
  | dropped (pos : Nat) (values : List Int16)
  /-- `tx_qbuf` failed. -/
  | failed (pos : Nat) (b : TxBuf)
  | queued (pos : Nat) (b : TxBuf)

structure RFNMTransmitter where
  running : Bool
  /-- The worker thread has not returned. -/
  working : Bool
  /-- `ctx->txWorkStarted`. -/
  txWorkStarted : Bool
  txStage : List Int16
  /-- Ghost: calls of `tx_dqbuf` and `tx_qbuf` so far. -/
  dqbufs : Nat
  qbufs : Nat
  /-- Ghost: values erased from the front of `txStage` so far. -/
  erased : Nat
  events : List Event

namespace RFNMTransmitter

def init : RFNMTransmitter := ⟨false, false, false, [], 0, 0, 0, []⟩

/-! ## Draining -/

/-- The samples of the next chunk, when `avail` values are left. -/
def chunkSize (lib : Librfnm) (avail : Nat) : Nat :=
  let chunk := (avail / (2 * 256)) * 256
  if chunk > lib.RFNM_USB_TX_PACKET_ELEM_CNT then lib.RFNM_USB_TX_PACKET_ELEM_CNT else chunk

/-- The worker in the inner loop; `returned` once `tx_qbuf` has failed. -/
structure Drain where
  tx : RFNMTransmitter
  off : Nat
  returned : Bool

namespace Drain

/-- `txStage.size() - off` -/
def avail (d : Drain) : Nat := d.tx.txStage.length - d.off

def more (d : Drain) : Bool := !d.returned && decide (d.avail ≥ 2 * 256)

/-- The values of the next chunk. -/
def values (lib : Librfnm) (d : Drain) : List Int16 :=
  (d.tx.txStage.drop d.off).take (2 * chunkSize lib d.avail)

/-- One iteration. -/
def step (lib : Librfnm) (d : Drain) : Drain :=
  let chunk := chunkSize lib d.avail
  let answer := lib.tx_dqbuf d.tx.dqbufs
  let pos := d.tx.erased + d.off
  let tx := { d.tx with dqbufs := d.tx.dqbufs + 1 }
  if answer.1 = false ∨ answer.2 = false then
    { d with
      tx := { tx with events := tx.events ++ [.dropped pos (d.values lib)] }
      off := d.off + 2 * chunk }
  else
    let b : TxBuf := { buf := d.values lib, elem_cnt := UInt32.ofNat chunk, tx_flags := 0 }
    let ok := lib.tx_qbuf tx.qbufs
    let tx := { tx with qbufs := tx.qbufs + 1 }
    if ok = false then
      { d with tx := { tx with events := tx.events ++ [.failed pos b] }, returned := true }
    else
      { d with
        tx := { tx with events := tx.events ++ [.queued pos b] }
        off := d.off + 2 * chunk }

/-- Bounds the iterations that are left. -/
def variant (d : Drain) : Nat := if d.returned then 0 else d.avail

def run (lib : Librfnm) (d : Drain) : Drain := whileVariant more (step lib) variant d

end Drain

/-! ## The worker -/

section

variable {F : Type} [TxSample F]

/-- `std::clamp`. -/
def clamp (v lo hi : F) : F := if TxSample.lt v lo then lo else if TxSample.lt hi v then hi else v

/-- Float to CS16 with saturation. -/
def toCS16 (x : F) : Int16 :=
  TxSample.toInt16 (clamp (x * TxSample.highest) TxSample.lowest TxSample.highest)

/-- The values of a block, `re` and `im` of each sample. -/
def convert (block : List (ComplexT F)) : List Int16 :=
  block.flatMap fun x => [toCS16 x.re, toCS16 x.im]

/-- A block appended to what is staged. -/
def stage (tx : RFNMTransmitter) (block : List (ComplexT F)) : RFNMTransmitter :=
  { tx with
    txStage := tx.txStage ++ convert block
    events := tx.events ++ [.converted (convert block)] }

/-- The inner loop on what is staged. -/
def drain (lib : Librfnm) (tx : RFNMTransmitter) : Drain := Drain.run lib ⟨tx, 0, false⟩

/-- One block: the worker returns when `tx_qbuf` failed, else it erases what was drained. -/
def process (lib : Librfnm) (tx : RFNMTransmitter) (block : List (ComplexT F)) :
    RFNMTransmitter :=
  let d := (tx.stage block).drain lib
  if d.returned then { d.tx with working := false }
  else { d.tx with txStage := d.tx.txStage.drop d.off, erased := d.tx.erased + d.off }

/-- What happens to a transmitter.  `start` is given the answers of `apply` and
    `tx_work_start`; `read` is a read of the worker, which gets nothing at a `stop`. -/
inductive Op (F : Type) where
  | start (applied workStarted : Bool)
  | read (block : List (ComplexT F))
  | stop

/-- `start`; it throws, and changes nothing here, when a call fails. -/
def start (tx : RFNMTransmitter) (applied workStarted : Bool) : RFNMTransmitter :=
  if tx.running then tx
  else if applied = false then tx
  else if tx.txWorkStarted = false ∧ workStarted = false then tx
  else { tx with txWorkStarted := true, working := true, running := true }

def stop (tx : RFNMTransmitter) : RFNMTransmitter :=
  if tx.running then { tx with working := false, txWorkStarted := false, running := false } else tx

def step (lib : Librfnm) (tx : RFNMTransmitter) : Op F → RFNMTransmitter
  | .start applied workStarted => tx.start applied workStarted
  | .read block =>
    if tx.working = false then tx
    else if block.length = 0 then { tx with working := false }
    else tx.process lib block
  | .stop => tx.stop

def run (lib : Librfnm) (tx : RFNMTransmitter) (ops : List (Op F)) : RFNMTransmitter :=
  ops.foldl (step lib) tx

end

end RFNMTransmitter

end RyFi.Device
