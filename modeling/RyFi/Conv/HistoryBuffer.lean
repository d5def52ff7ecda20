import RyFi.Conv.Bit

/-! # Path metrics and path histories

`error_buffer.c` and `history_buffer.c`.  The two metric arrays of `error_buffer_t` are
indexed by 0 and 1, and `read` and `write` say which of them the two pointers name.
`search` comes in two versions, selected as at run time: the scalar loop and the NEON one.
-/

namespace RyFi.Conv

open CLoop

/-! ## Error buffer -/

structure ErrorBuffer where
  index : Nat
  errors : Nat → Nat → UInt16
  numStates : Nat
  read : Nat
  write : Nat

namespace ErrorBuffer

/-- `error_buffer_create`. -/
def create (numStates : Nat) : ErrorBuffer where
  index := 0
  errors := fun _ _ => 0
  numStates := numStates
  read := 0
  write := 1

/-- `error_buffer_reset`. -/
def reset (b : ErrorBuffer) : ErrorBuffer :=
  { b with
    errors := fun a s => if s < b.numStates ∧ a < 2 then 0 else b.errors a s
    index := 0
    read := 0
    write := 1 }

/-- `error_buffer_swap`. -/
def swap (b : ErrorBuffer) : ErrorBuffer :=
  let index := (b.index + 1) % 2
  { b with read := b.index, index := index, write := index }

def readErrors (b : ErrorBuffer) : Nat → UInt16 := b.errors b.read

def writeErrors (b : ErrorBuffer) : Nat → UInt16 := b.errors b.write

/-- The array behind `write_errors` after stores to it. -/
def setWriteErrors (b : ErrorBuffer) (errors : Nat → UInt16) : ErrorBuffer :=
  { b with errors := Function.update b.errors b.write errors }

end ErrorBuffer

/-! ## NEON lanes -/

/-- A register of eight 16-bit lanes. -/
abbrev U16x8 : Type := Fin 8 → UInt16

namespace U16x8

/-- `vld1q_u16(p)`. -/
def load (p : Nat → UInt16) : U16x8 := fun k => p k.val

/-- `vld2q_u16(p)`: the even and the odd entries. -/
def load2 (p : Nat → UInt16) : U16x8 × U16x8 := (fun k => p (2 * k.val), fun k => p (2 * k.val + 1))

/-- `vdupq_n_u16`. -/
def dup (x : UInt16) : U16x8 := fun _ => x

/-- `vaddq_u16`: wraps in every lane. -/
def add (a b : U16x8) : U16x8 := fun k => a k + b k

/-- `vminq_u16`. -/
def min (a b : U16x8) : U16x8 := fun k => if a k ≤ b k then a k else b k

/-- `vcltq_u16`: all ones where `a < b`. -/
def lt (a b : U16x8) : U16x8 := fun k => if a k < b k then 0xFFFF else 0

/-- `vandq_u16`. -/
def and (a b : U16x8) : U16x8 := fun k => a k &&& b k

/-- `vbslq_u16`: the bits of `a` where the mask is set, else those of `b`. -/
def select (mask a b : U16x8) : U16x8 := fun k => (mask k &&& a k) ||| (~~~ mask k &&& b k)

/-- `vmovn_u16`: the low byte of every lane. -/
def narrow (a : U16x8) : Fin 8 → UInt8 := fun k => (a k).toUInt8

end U16x8

/-- `vst2q_u16(&dst[at], a, b)` and `vst2_u8`: the lanes of `a` and `b` interleaved. -/
def store2 {α : Type} (dst : Nat → α) (at_ : Nat) (a b : Fin 8 → α) : Nat → α :=
  fun i =>
    if h : at_ ≤ i ∧ i < at_ + 16 then
      let k : Fin 8 := ⟨(i - at_) / 2, by omega⟩
      if (i - at_) % 2 = 0 then a k else b k
    else dst i

/-! ## History buffer -/

structure HistoryBuffer where
  minTracebackLength : Nat
  tracebackGroupLength : Nat
  cap : Nat
  numStates : Nat
  highbit : Nat
  history : Nat → Nat → UInt8
  index : Nat
  len : Nat
  fetched : Nat → UInt8
  renormalizeInterval : Nat
  renormalizeCounter : Nat

namespace HistoryBuffer

/-- `history_buffer_create`; `fetched` is not initialized. -/
def create (minTracebackLength tracebackGroupLength renormalizeInterval numStates highbit : Nat)
    (fetched : Nat → UInt8) : HistoryBuffer where
  minTracebackLength := minTracebackLength
  tracebackGroupLength := tracebackGroupLength
  cap := minTracebackLength + tracebackGroupLength
  numStates := numStates
  highbit := highbit
  history := fun _ _ => 0
  index := 0
  len := 0
  fetched := fetched
  renormalizeInterval := renormalizeInterval
  renormalizeCounter := 0

/-- `history_buffer_reset`. -/
def reset (buf : HistoryBuffer) : HistoryBuffer := { buf with len := 0, index := 0 }

/-- `history_buffer_get_slice`. -/
def getSlice (buf : HistoryBuffer) : Nat → UInt8 := buf.history buf.index

/-- The slice at `index` after stores to it. -/
def setSlice (buf : HistoryBuffer) (slice : Nat → UInt8) : HistoryBuffer :=
  { buf with history := Function.update buf.history buf.index slice }

/-- The scalar loop of `history_buffer_search`: the best state and its error. -/
def searchScalar (numStates : Nat) (distances : Nat → UInt16) (searchEvery : Nat) :
    Nat × UInt16 :=
  forLoop 0 ((numStates + searchEvery - 1) / searchEvery) (fun k (s : Nat × UInt16) =>
    let state := k * searchEvery
    if distances state < s.2 then (state, distances state) else s) (0, 0xFFFF)

/-- The lanes of the NEON loop. -/
structure Lanes where
  idx : U16x8
  best : U16x8
  bestidx : U16x8

/-- One iteration of the NEON loop, on the states `8 * c, …, 8 * c + 7`. -/
def Lanes.step (distances : Nat → UInt16) (c : Nat) (s : Lanes) : Lanes :=
  let d := U16x8.load fun k => distances (8 * c + k)
  let lt := U16x8.lt d s.best
  { best := U16x8.select lt d s.best
    bestidx := U16x8.select lt s.idx s.bestidx
    idx := U16x8.add s.idx (U16x8.dup 8) }

/-- The NEON version of `history_buffer_search`. -/
def searchNeon (numStates : Nat) (distances : Nat → UInt16) : Nat :=
  let s := forLoop 0 ((numStates + 7) / 8) (Lanes.step distances)
    ⟨fun k => UInt16.ofNat k.val, U16x8.dup 0xFFFF, U16x8.dup 0⟩
  let vals := fun k => s.best (Fin.ofNat 8 k)
  let idxs := fun k => (s.bestidx (Fin.ofNat 8 k)).toNat
  (forLoop 1 8 (fun k (r : UInt16 × Nat) =>
    if vals k < r.1 ∨ (vals k = r.1 ∧ idxs k < r.2) then (vals k, idxs k) else r)
    (vals 0, idxs 0)).2

/-- `history_buffer_search`. -/
def search (neon : Bool) (buf : HistoryBuffer) (distances : Nat → UInt16) (searchEvery : Nat) :
    Nat :=
  if neon ∧ searchEvery = 1 ∧ buf.numStates % 8 = 0 then searchNeon buf.numStates distances
  else (searchScalar buf.numStates distances searchEvery).1

/-- `history_buffer_renormalize`. -/
def renormalize (buf : HistoryBuffer) (distances : Nat → UInt16) (minRegister : Nat) :
    Nat → UInt16 :=
  let minDistance := distances minRegister
  forLoop 0 buf.numStates (fun i distances =>
    Function.update distances i (distances i - minDistance)) distances

/-- The index of the slice before. -/
def prevIndex (buf : HistoryBuffer) (index : Nat) : Nat :=
  if index = 0 then buf.cap - 1 else index - 1

/-- `bestpath` one time slice earlier, and the bit shifted out there. -/
def prevState (buf : HistoryBuffer) (index bestpath : Nat) : Nat :=
  let pathbit := if buf.history index bestpath ≠ 0 then buf.highbit else 0
  (bestpath ||| pathbit) >>> 1

/-- The variables of the traceback loops. -/
structure Trace where
  index : Nat
  bestpath : Nat
  fetched : Nat → UInt8
  fetchedIndex : Nat

/-- One step back through the slices that are too young to be decoded. -/
def traceSkip (buf : HistoryBuffer) (s : Trace) : Trace :=
  let index := buf.prevIndex s.index
  { s with index := index, bestpath := buf.prevState index s.bestpath }

/-- One step back that fetches a bit. -/
def traceFetch (buf : HistoryBuffer) (s : Trace) : Trace :=
  let index := buf.prevIndex s.index
  { index := index
    bestpath := buf.prevState index s.bestpath
    fetched := Function.update s.fetched s.fetchedIndex
      (if buf.history index s.bestpath ≠ 0 ∧ buf.highbit ≠ 0 then 1 else 0)
    fetchedIndex := s.fetchedIndex + 1 }

/-- `history_buffer_traceback`.  `prefetch_index` always holds the index before `index`. -/
def traceback (buf : HistoryBuffer) (bestpath minTracebackLength : Nat) (output : BitWriter) :
    HistoryBuffer × BitWriter :=
  let s := forLoop 0 minTracebackLength (fun _ s => buf.traceSkip s)
    ⟨buf.index, bestpath, buf.fetched, 0⟩
  let s := forLoop minTracebackLength buf.len (fun _ s => buf.traceFetch s) s
  ({ buf with fetched := s.fetched, len := buf.len - s.fetchedIndex },
    output.writeBitlistReversed s.fetched s.fetchedIndex)

/-- What `history_buffer_process_skip` leaves behind. -/
structure Processed where
  buf : HistoryBuffer
  distances : Nat → UInt16
  output : BitWriter

/-- The traceback of `history_buffer_process_skip`, made when the buffer is full. -/
def decodeBurst (buf : HistoryBuffer) (distances : Nat → UInt16) (bestpath : Nat)
    (output : BitWriter) : Processed :=
  let r := buf.traceback bestpath buf.minTracebackLength output
  ⟨r.1, distances, r.2⟩

/-- `history_buffer_process_skip`. -/
def processSkip (neon : Bool) (buf : HistoryBuffer) (distances : Nat → UInt16)
    (output : BitWriter) (skip : Nat) : Processed :=
  let buf := { buf with
    index := if buf.index + 1 = buf.cap then 0 else buf.index + 1
    renormalizeCounter := buf.renormalizeCounter + 1
    len := buf.len + 1 }
  if buf.renormalizeCounter = buf.renormalizeInterval then
    let buf := { buf with renormalizeCounter := 0 }
    let bestpath := buf.search neon distances skip
    let distances := buf.renormalize distances bestpath
    -- reuse the bestpath found for renormalizing
    if buf.len = buf.cap then buf.decodeBurst distances bestpath output
    else ⟨buf, distances, output⟩
  else if buf.len = buf.cap then
    -- not renormalizing, find the bestpath here
    buf.decodeBurst distances (buf.search neon distances skip) output
  else ⟨buf, distances, output⟩

/-- `history_buffer_process`. -/
def process (neon : Bool) (buf : HistoryBuffer) (distances : Nat → UInt16) (output : BitWriter) :
    Processed :=
  buf.processSkip neon distances output 1

/-- `history_buffer_flush`. -/
def flush (buf : HistoryBuffer) (output : BitWriter) : HistoryBuffer × BitWriter :=
  buf.traceback 0 0 output

end HistoryBuffer

end RyFi.Conv
