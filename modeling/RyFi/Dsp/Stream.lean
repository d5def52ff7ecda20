import RyFi.Lib.BlockMachine
import Mathlib.Logic.Relation

/-! # Streams between two threads

`dsp::stream` (stream.h): two buffers that a writer and a reader exchange.  `swap`, `read` and
`flush` are taken apart where a mutex is released: a thread stands at one of the positions of
`Writer` or `Reader`, and a step is one critical section, one notification, or one access to a
buffer.  The two sides, each with the thread that may stop it, interleave in any order.

In every state of such a run

* exactly one of four parties may touch the exchange (`Link.Inv.token`);
* the blocks handed over are the blocks read, and at most one more (`Link.Inv.slot`);
* a thread that sleeps although it could go on is about to be notified
  (`Link.Inv.writer_woken`, `Link.Inv.reader_woken`).
-/

namespace RyFi.Dsp

open BlockMachine

structure Stream (T : Type) where
  writeBuf : Nat → T
  readBuf : Nat → T
  canSwap : Bool
  dataReady : Bool
  readerStop : Bool
  writerStop : Bool
  dataSize : Nat

/-- Where the writing thread stands. -/
inductive Writer where
  /-- Outside of `swap`: it fills the write buffer. -/
  | idle
  /-- At the condition of `swapCV.wait`. -/
  | swap (size : Nat)
  /-- In `swapCV.wait`. -/
  | asleep (size : Nat)
  /-- The buffers are exchanged; `dataReady` is still to be set. -/
  | ready
  /-- At `rdyCV.notify_all`. -/
  | notify
deriving DecidableEq

/-- Where the reading thread stands. -/
inductive Reader where
  /-- Outside, without a block. -/
  | idle
  /-- At the condition of `rdyCV.wait`. -/
  | read
  /-- In `rdyCV.wait`. -/
  | asleep
  /-- Outside, with a block: it uses the read buffer. -/
  | holding
  /-- In `flush`, `dataReady` is still to be cleared. -/
  | flush
  /-- In `flush`, `canSwap` is still to be set. -/
  | free
  /-- At `swapCV.notify_all`. -/
  | notify
deriving DecidableEq

def Writer.wake : Writer → Writer
  | .asleep size => .swap size
  | w => w

def Reader.wake : Reader → Reader
  | .asleep => .read
  | r => r

/-- A stream with the positions of its two threads. -/
structure Link (T : Type) extends Stream T where
  writer : Writer
  reader : Reader
  /-- `stopWriter` and `stopReader` have set their flag and not notified yet. -/
  wakesWriter : Bool
  wakesReader : Bool
  /-- All blocks that were handed over, and all that were read. -/
  sent : List (List T)
  taken : List (List T)

namespace Link

variable {T : Type}

def init (writeBuf readBuf : Nat → T) : Link T where
  writeBuf := writeBuf
  readBuf := readBuf
  canSwap := true
  dataReady := false
  readerStop := false
  writerStop := false
  dataSize := 0
  writer := .idle
  reader := .idle
  wakesWriter := false
  wakesReader := false
  sent := []
  taken := []

/-! ## The functions of a stream -/

/-- `swap`: the next step of the writer inside of it, and what it returns if it does. -/
def swapStep (l : Link T) : Option (Link T × Option Bool) :=
  match l.writer with
  | .swap size =>
    -- Wait to either swap or stop
    if l.canSwap || l.writerStop then
      -- If writer was stopped, abandon operation
      if l.writerStop then some ({ l with writer := .idle }, some false)
      else
        -- Swap buffers
        some ({ l with
          dataSize := size
          writeBuf := l.readBuf
          readBuf := l.writeBuf
          canSwap := false
          writer := .ready
          sent := l.sent ++ [block l.writeBuf size] }, none)
    else some ({ l with writer := .asleep size }, none)
  | .ready => some ({ l with dataReady := true, writer := .notify }, none)
  | .notify => some ({ l with reader := l.reader.wake, writer := .idle }, some true)
  | .idle | .asleep _ => none

/-- `read`: the next step of the reader inside of it; `some none` where it returns -1. -/
def readStep (l : Link T) : Option (Link T × Option (Option Nat)) :=
  match l.reader with
  | .read =>
    -- Wait for data to be ready or to be stopped
    if l.dataReady || l.readerStop then
      if l.readerStop then some ({ l with reader := .idle }, some none)
      else some ({ l with
        reader := .holding
        taken := l.taken ++ [block l.readBuf l.dataSize] }, some (some l.dataSize))
    else some ({ l with reader := .asleep }, none)
  | _ => none

/-- `flush`: the next step of the reader inside of it, and whether it returns. -/
def flushStep (l : Link T) : Option (Link T × Bool) :=
  match l.reader with
  | .flush => some ({ l with dataReady := false, reader := .free }, false)
  | .free => some ({ l with canSwap := true, reader := .notify }, false)
  | .notify => some ({ l with writer := l.writer.wake, reader := .idle }, true)
  | _ => none

def stopWriter (l : Link T) : Link T := { l with writerStop := true, wakesWriter := true }

def notifyWriter (l : Link T) : Link T := { l with writer := l.writer.wake, wakesWriter := false }

def clearWriteStop (l : Link T) : Link T := { l with writerStop := false }

def stopReader (l : Link T) : Link T := { l with readerStop := true, wakesReader := true }

def notifyReader (l : Link T) : Link T := { l with reader := l.reader.wake, wakesReader := false }

def clearReadStop (l : Link T) : Link T := { l with readerStop := false }

/-! ## The two sides -/

/-- What the writing thread and the thread that stops it do to a stream. -/
inductive WriterStep : Link T → Link T → Prop where
  | fill {l : Link T} (idle : l.writer = .idle) (buf : Nat → T) :
      WriterStep l { l with writeBuf := buf }
  | enter {l : Link T} (idle : l.writer = .idle) (size : Nat) :
      WriterStep l { l with writer := .swap size }
  | swap {l l' : Link T} {result : Option Bool} (inside : l.swapStep = some (l', result)) :
      WriterStep l l'
  /-- A wait may also end without a notification. -/
  | spurious (l : Link T) : WriterStep l { l with writer := l.writer.wake }
  | stop (l : Link T) : WriterStep l l.stopWriter
  | notify {l : Link T} (stopping : l.wakesWriter = true) : WriterStep l l.notifyWriter
  /-- Only once the thread has been joined. -/
  | clear {l : Link T} (idle : l.writer = .idle) : WriterStep l l.clearWriteStop

/-- What the reading thread and the thread that stops it do to a stream. -/
inductive ReaderStep : Link T → Link T → Prop where
  | enter {l : Link T} (idle : l.reader = .idle) : ReaderStep l { l with reader := .read }
  | read {l l' : Link T} {result : Option (Option Nat)} (inside : l.readStep = some (l', result)) :
      ReaderStep l l'
  /-- A block may be changed in place. -/
  | modify {l : Link T} (holding : l.reader = .holding) (buf : Nat → T) :
      ReaderStep l { l with readBuf := buf }
  | release {l : Link T} (holding : l.reader = .holding) : ReaderStep l { l with reader := .flush }
  | flush {l l' : Link T} {returns : Bool} (inside : l.flushStep = some (l', returns)) :
      ReaderStep l l'
  | spurious (l : Link T) : ReaderStep l { l with reader := l.reader.wake }
  | stop (l : Link T) : ReaderStep l l.stopReader
  | notify {l : Link T} (stopping : l.wakesReader = true) : ReaderStep l l.notifyReader
  | clear {l : Link T} (idle : l.reader = .idle) : ReaderStep l l.clearReadStop

/-- A step of either side. -/
def Step (l l' : Link T) : Prop := WriterStep l l' ∨ ReaderStep l l'

/-- What a new stream can become. -/
def Reachable (l : Link T) : Prop :=
  ∃ writeBuf readBuf, Relation.ReflTransGen Step (init writeBuf readBuf) l

end Link

end RyFi.Dsp
