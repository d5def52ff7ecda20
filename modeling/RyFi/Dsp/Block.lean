import RyFi.Dsp.Handoff
import RyFi.Lib.BlockMachine

/-! # Blocks of processing

A `dsp::block` with one input and one output (block.h, processor.h): its worker thread, which
calls `run` until it fails, and the thread that starts and stops it.  What `run` does between
`read`, `flush` and `swap` is a `Machine`.  All the blocks of the modem have one of two
shapes: most release their input and then hand over what they made of it, the deframer hands
over blocks while it holds its input.  The input is held while a call of `process` works on
it, so that the call is one step.
-/

namespace RyFi.Dsp

open BlockMachine

/-- What a worker does once `flush` has returned. -/
inductive After where
  /-- `read` again. -/
  | again
  /-- `swap` the block it has made. -/
  | hand (size : Nat)
  /-- Return -1. -/
  | stop

/-- Where the worker thread of a block is. -/
inductive Phase where
  /-- Not started, or `run` has returned -1. -/
  | ended
  | reading
  | processing (count next : Nat)
  | releasing (after : After)
  /-- In `swap`; the input is still held if there is a sample to go on at. -/
  | handing (resume : Option (Nat × Nat))

/-- How far `stop` has come. -/
inductive Control where
  | running
  /-- `stopReader` has set its flag, and then notified. -/
  | stoppingReader
  | stoppedReader
  /-- `stopWriter` has set its flag. -/
  | stoppingWriter
  /-- It has notified; the thread is being joined. -/
  | joining
  /-- Joined, and the reader is cleared. -/
  | clearing
  | stopped

/-- The threads of a block, and how often it has been stopped. -/
structure Worker {I O : Type} (M : Machine I O) where
  phase : Phase
  state : M.State
  control : Control
  stops : Nat

/-- What follows the release of the input. -/
def After.ofLast : Option Nat → After
  | none => .again
  | some size => .hand size

variable {I O : Type}

/-- A step of the worker, in `run` or `workerLoop`. -/
inductive WorkerStep (M : Machine I O) :
    Link I → Worker M → Link O → Link I → Worker M → Link O → Prop where
  | readWaits {input input' : Link I} {output : Link O} {state control stops}
      (inside : input.readStep = some (input', none)) :
      WorkerStep M input ⟨.reading, state, control, stops⟩ output
        input' ⟨.reading, state, control, stops⟩ output
  | readStopped {input input' : Link I} {output : Link O} {state control stops}
      (inside : input.readStep = some (input', some none)) :
      WorkerStep M input ⟨.reading, state, control, stops⟩ output
        input' ⟨.ended, state, control, stops⟩ output
  | readBlock {input input' : Link I} {output : Link O} {state control stops count}
      (inside : input.readStep = some (input', some (some count))) :
      WorkerStep M input ⟨.reading, state, control, stops⟩ output
        input' ⟨.processing count 0, state, control, stops⟩ output
  | emit {input : Link I} {output : Link O} {state control stops count next size next'}
      {work : Work M.State I O}
      (call : M.process count next ⟨state, input.readBuf, output.writeBuf⟩ work
        (.emit size next')) :
      WorkerStep M input ⟨.processing count next, state, control, stops⟩ output
        { input with readBuf := work.input }
        ⟨.handing (some (count, next')), work.state, control, stops⟩
        { output with writeBuf := work.output, writer := .swap size }
  | done {input : Link I} {output : Link O} {state control stops count next last}
      {work : Work M.State I O}
      (call : M.process count next ⟨state, input.readBuf, output.writeBuf⟩ work (.done last)) :
      WorkerStep M input ⟨.processing count next, state, control, stops⟩ output
        { input with readBuf := work.input, reader := .flush }
        ⟨.releasing (.ofLast last), work.state, control, stops⟩
        { output with writeBuf := work.output }
  | flushInside {input input' : Link I} {output : Link O} {after state control stops}
      (inside : input.flushStep = some (input', false)) :
      WorkerStep M input ⟨.releasing after, state, control, stops⟩ output
        input' ⟨.releasing after, state, control, stops⟩ output
  | flushAgain {input input' : Link I} {output : Link O} {state control stops}
      (inside : input.flushStep = some (input', true)) :
      WorkerStep M input ⟨.releasing .again, state, control, stops⟩ output
        { input' with reader := .read } ⟨.reading, state, control, stops⟩ output
  | flushHand {input input' : Link I} {output : Link O} {size state control stops}
      (inside : input.flushStep = some (input', true)) :
      WorkerStep M input ⟨.releasing (.hand size), state, control, stops⟩ output
        input' ⟨.handing none, state, control, stops⟩ { output with writer := .swap size }
  | flushStop {input input' : Link I} {output : Link O} {state control stops}
      (inside : input.flushStep = some (input', true)) :
      WorkerStep M input ⟨.releasing .stop, state, control, stops⟩ output
        input' ⟨.ended, state, control, stops⟩ output
  | swapInside {input : Link I} {output output' : Link O} {resume state control stops}
      (inside : output.swapStep = some (output', none)) :
      WorkerStep M input ⟨.handing resume, state, control, stops⟩ output
        input ⟨.handing resume, state, control, stops⟩ output'
  | swapResume {input : Link I} {output output' : Link O} {count next state control stops}
      (inside : output.swapStep = some (output', some true)) :
      WorkerStep M input ⟨.handing (some (count, next)), state, control, stops⟩ output
        input ⟨.processing count next, state, control, stops⟩ output'
  | swapAgain {input : Link I} {output output' : Link O} {state control stops}
      (inside : output.swapStep = some (output', some true)) :
      WorkerStep M input ⟨.handing none, state, control, stops⟩ output
        { input with reader := .read } ⟨.reading, state, control, stops⟩ output'
  | abandonHeld {input : Link I} {output output' : Link O} {resume state control stops}
      (inside : output.swapStep = some (output', some false)) :
      WorkerStep M input ⟨.handing (some resume), state, control, stops⟩ output
        { input with reader := .flush } ⟨.releasing .stop, state, control, stops⟩ output'
  | abandon {input : Link I} {output output' : Link O} {state control stops}
      (inside : output.swapStep = some (output', some false)) :
      WorkerStep M input ⟨.handing none, state, control, stops⟩ output
        input ⟨.ended, state, control, stops⟩ output'

/-- A wait that ends without a notification. -/
inductive SpuriousStep (M : Machine I O) :
    Link I → Worker M → Link O → Link I → Worker M → Link O → Prop where
  | read {input : Link I} {output : Link O} {state control stops} :
      SpuriousStep M input ⟨.reading, state, control, stops⟩ output
        { input with reader := input.reader.wake } ⟨.reading, state, control, stops⟩ output
  | swap {input : Link I} {output : Link O} {resume state control stops} :
      SpuriousStep M input ⟨.handing resume, state, control, stops⟩ output
        input ⟨.handing resume, state, control, stops⟩
        { output with writer := output.writer.wake }

/-- A step of `start` or `stop`. -/
inductive ControlStep (M : Machine I O) :
    Link I → Worker M → Link O → Link I → Worker M → Link O → Prop where
  | stopReader {input : Link I} {output : Link O} {phase state stops} :
      ControlStep M input ⟨phase, state, .running, stops⟩ output
        input.stopReader ⟨phase, state, .stoppingReader, stops + 1⟩ output
  | notifyReader {input : Link I} {output : Link O} {phase state stops} :
      ControlStep M input ⟨phase, state, .stoppingReader, stops⟩ output
        input.notifyReader ⟨phase, state, .stoppedReader, stops⟩ output
  | stopWriter {input : Link I} {output : Link O} {phase state stops} :
      ControlStep M input ⟨phase, state, .stoppedReader, stops⟩ output
        input ⟨phase, state, .stoppingWriter, stops⟩ output.stopWriter
  | notifyWriter {input : Link I} {output : Link O} {phase state stops} :
      ControlStep M input ⟨phase, state, .stoppingWriter, stops⟩ output
        input ⟨phase, state, .joining, stops⟩ output.notifyWriter
  | joined {input : Link I} {output : Link O} {state stops} :
      ControlStep M input ⟨.ended, state, .joining, stops⟩ output
        input.clearReadStop ⟨.ended, state, .clearing, stops⟩ output
  | cleared {input : Link I} {output : Link O} {state stops} :
      ControlStep M input ⟨.ended, state, .clearing, stops⟩ output
        input ⟨.ended, state, .stopped, stops⟩ output.clearWriteStop
  | start {input : Link I} {output : Link O} {state stops} :
      ControlStep M input ⟨.ended, state, .stopped, stops⟩ output
        { input with reader := .read } ⟨.reading, state, .running, stops⟩ output

/-- A step of a block. -/
inductive BlockStep (M : Machine I O) (input : Link I) (w : Worker M) (output : Link O)
    (input' : Link I) (w' : Worker M) (output' : Link O) : Prop where
  | worker (step : WorkerStep M input w output input' w' output')
  | spurious (step : SpuriousStep M input w output input' w' output')
  | control (step : ControlStep M input w output input' w' output')

end RyFi.Dsp
