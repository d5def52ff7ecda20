import Mathlib.Logic.Function.Basic

/-! # The RFNM driver

`RFNMDriver::openRX`, `openTX`, `acquireContext` and `releaseContext`, with the constructors
and `close` of the two halves (device/rfnm.cpp).  Contexts and devices live in a heap of their
own; of librfnm only the answers of the calls are given.  A context's sample rate and
`txWorkStarted` belong to the streams and are left out.
-/

namespace RyFi.Device

/-! ## Identifiers -/

inductive Transport where
  | find
  | localDevice
  | usb
  | tcp
deriving DecidableEq

/-- The transport and the address, or false. -/
def parseIdent (ident : String) : Option (Transport × String) :=
  if ident = "" ∨ ident = "find" then some (.find, "")
  else if ident = "local" then some (.localDevice, "")
  else
    let colon := ident.toList.contains ':'
    let head := String.ofList (ident.toList.takeWhile (· != ':'))
    let tail := String.ofList ((ident.toList.dropWhile (· != ':')).drop 1)
    if head = "usb" then some (.usb, tail)
    else if head = "eth" ∨ head = "tcp" then some (.tcp, tail)
    else if !colon then
      -- a bare string is a USB serial
      some (.usb, ident)
    else none

example : parseIdent "usb:1234" = some (.usb, "1234") := by decide +kernel

example : parseIdent "serial:1" = none := by decide +kernel

/-! ## Contexts -/

structure RFNMContext where
  /-- Not set before the device is open. -/
  dev : Option Nat
  ident : String
  refCount : Int

/-- An `RFNMReceiver` or `RFNMTransmitter`; `ctx` is `NULL` once it is closed. -/
structure Half where
  transmits : Bool
  ctx : Option Nat

structure RFNMDriver where
  contexts : String → Option Nat
  /-- The contexts that are allocated. -/
  heap : Nat → Option RFNMContext
  /-- The devices that are open. -/
  devices : Nat → Bool
  /-- The next address, of a context and its device. -/
  next : Nat
  /-- Every half that was returned. -/
  halves : List Half

/-- What librfnm answers: `none`, or the text of the failure. -/
structure Answers where
  device : Transport → String → Option String
  get : Option String
  rx_disable_stale_channels : Option String
  set_stream_format : Option String
  get_tx_channel_count : Nat
  is_tx_channel_available : Bool

namespace RFNMDriver

def init : RFNMDriver := ⟨fun _ => none, fun _ => none, fun _ => false, 0, []⟩

/-- `delete ctx->dev; delete ctx;` -/
def deleteContext (s : RFNMDriver) (ctx : Nat) : RFNMDriver :=
  let dev := (s.heap ctx).bind RFNMContext.dev
  { s with
    devices := fun d => if dev = some d then false else s.devices d
    heap := Function.update s.heap ctx none }

/-- `new RFNMContext` for the identifier, with one reference. -/
def newContext (s : RFNMDriver) (ident : String) : RFNMDriver :=
  { s with
    heap := Function.update s.heap s.next (some { dev := none, ident := ident, refCount := 1 })
    next := s.next + 1 }

/-- `ctx->dev = new rfnm::device(transport, address);` when it does not throw. -/
def openDevice (s : RFNMDriver) (ident : String) (ctx : Nat) : RFNMDriver :=
  { s with
    heap := Function.update s.heap ctx (some { dev := some ctx, ident := ident, refCount := 1 })
    devices := Function.update s.devices ctx true }

def acquireContext (s : RFNMDriver) (identifier : String) (a : Answers) :
    RFNMDriver × Except String Nat :=
  match s.contexts identifier with
  | some ctx =>
    -- reuse an open context
    let heap := Function.update s.heap ctx
      ((s.heap ctx).map fun c => { c with refCount := c.refCount + 1 })
    ({ s with heap := heap }, .ok ctx)
  | none =>
    match parseIdent identifier with
    | none => (s, .error ("Invalid RFNM device identifier: '" ++ identifier ++ "'"))
    | some (transport, address) =>
      let ctx := s.next
      let s := s.newContext identifier
      match a.device transport address with
      | some err => (s, .error err)
      | none =>
        let s := s.openDevice identifier ctx
        match a.get with
        | some err =>
          (s.deleteContext ctx, .error ("Failed to read the RFNM device status: " ++ err))
        | none =>
          match a.rx_disable_stale_channels with
          | some err =>
            (s.deleteContext ctx, .error ("Failed to disable stale RFNM channels: " ++ err))
          | none =>
            match a.set_stream_format with
            | some err =>
              (s.deleteContext ctx, .error ("Failed to set the RFNM stream format: " ++ err))
            | none =>
              ({ s with contexts := Function.update s.contexts identifier (some ctx) }, .ok ctx)

def releaseContext (s : RFNMDriver) (ctx : Nat) : RFNMDriver :=
  match s.heap ctx with
  | none => s
  | some c =>
    let c := { c with refCount := c.refCount - 1 }
    let s := { s with heap := Function.update s.heap ctx (some c) }
    if c.refCount > 0 then s
    else { s with contexts := Function.update s.contexts c.ident none }.deleteContext ctx

/-- The receiver's constructor only stages defaults on the device. -/
def openRX (s : RFNMDriver) (identifier : String) (a : Answers) :
    RFNMDriver × Except String Nat :=
  match s.acquireContext identifier a with
  | (s, .error err) => (s, .error err)
  | (s, .ok ctx) =>
    ({ s with halves := s.halves ++ [⟨false, some ctx⟩] }, .ok s.halves.length)

/-- The transmitter's constructor throws when there is no channel; its destructor does not run
    then. -/
def openTX (s : RFNMDriver) (identifier : String) (a : Answers) :
    RFNMDriver × Except String Nat :=
  match s.acquireContext identifier a with
  | (s, .error err) => (s, .error err)
  | (s, .ok ctx) =>
    if a.get_tx_channel_count = 0 ∨ a.is_tx_channel_available = false then
      (s, .error "This RFNM device has no TX channel")
    else ({ s with halves := s.halves ++ [⟨true, some ctx⟩] }, .ok s.halves.length)

/-- `close` of half number `i`; its destructor does the same, as the half does not run. -/
def close (s : RFNMDriver) (i : Nat) : RFNMDriver :=
  match s.halves[i]? with
  | none => s
  | some half =>
    let s := match half.ctx with
      | none => s
      | some ctx => s.releaseContext ctx
    { s with halves := s.halves.set i { half with ctx := none } }

inductive Op where
  | openRX (identifier : String) (a : Answers)
  | openTX (identifier : String) (a : Answers)
  | close (i : Nat)

def step (s : RFNMDriver) : Op → RFNMDriver
  | .openRX identifier a => (s.openRX identifier a).1
  | .openTX identifier a => (s.openTX identifier a).1
  | .close i => s.close i

def run (s : RFNMDriver) (ops : List Op) : RFNMDriver := ops.foldl step s

end RFNMDriver

end RyFi.Device
