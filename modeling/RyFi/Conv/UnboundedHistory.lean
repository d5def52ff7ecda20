import RyFi.Conv.Ring
import Mathlib.Data.List.GetD
import Mathlib.Logic.Function.Iterate

/-! # The ring refines an unbounded history

`UnboundedHistory` keeps every slice since the reset in a list and never overwrites one.  The
ring buffer writes the same bits: `Refines` says that the slots of the slices without a bit
hold these slices, and `refines_feed` that this survives a slice, at whatever place of the
ring the index stands and whether or not the metrics are renormalized.
-/

namespace RyFi.Conv

open CLoop

/-- A slice of history bits, with the metrics its states have. -/
inductive Feed where
  | process (slice : Nat → UInt8) (distances : Nat → UInt16)
  | processSkip (slice : Nat → UInt8) (distances : Nat → UInt16) (skip : Nat)

namespace Feed

def slice : Feed → Nat → UInt8
  | .process slice _ => slice
  | .processSkip slice _ _ => slice

def distances : Feed → Nat → UInt16
  | .process _ distances => distances
  | .processSkip _ distances _ => distances

def skip : Feed → Nat
  | .process _ _ => 1
  | .processSkip _ _ skip => skip

end Feed

/-! ## The unbounded history -/

/-- All slices since the reset, oldest first, and the bits written for them. -/
structure UnboundedHistory where
  slices : List (Nat → UInt8)
  bits : List Bool

namespace UnboundedHistory

open HistoryBuffer (pathBit pathBits)

variable {highbit cap kept : Nat} {search : (Nat → UInt16) → Nat → Nat} {h : UnboundedHistory}

def empty : UnboundedHistory := ⟨[], []⟩

/-- Slice `u` since the reset. -/
def slice (h : UnboundedHistory) (u : Nat) : Nat → UInt8 := h.slices.getD u fun _ => 0

def push (h : UnboundedHistory) (s : Nat → UInt8) : UnboundedHistory :=
  { h with slices := h.slices ++ [s] }

/-- Writes the bits of the path that ends in `state`, for all slices that have none yet but
    the youngest `kept`. -/
def traceback (highbit kept state : Nat) (h : UnboundedHistory) : UnboundedHistory :=
  { h with
    bits := h.bits ++ pathBits h.slice highbit h.slices.length state h.bits.length
      (h.slices.length - kept - h.bits.length) }

/-- One more slice; as soon as `cap` of them have no bit, the best path is traced back. -/
def feed (highbit cap kept : Nat) (search : (Nat → UInt16) → Nat → Nat) (h : UnboundedHistory)
    (f : Feed) : UnboundedHistory :=
  let h := h.push f.slice
  if h.slices.length = h.bits.length + cap then
    h.traceback highbit kept (search f.distances f.skip)
  else h

/-- The path that ends in state 0 gives the bits that are left. -/
def flush (highbit : Nat) (h : UnboundedHistory) : UnboundedHistory := h.traceback highbit 0 0

@[simp] theorem bits_push (h : UnboundedHistory) (s : Nat → UInt8) : (h.push s).bits = h.bits := rfl

@[simp] theorem length_push (h : UnboundedHistory) (s : Nat → UInt8) :
    (h.push s).slices.length = h.slices.length + 1 := by
  simp [push]

theorem slice_push (s : Nat → UInt8) (u : Nat) :
    (h.push s).slice u = if u = h.slices.length then s else h.slice u := by
  rw [slice, slice, push]
  simp only
  rcases Nat.lt_trichotomy u h.slices.length with hlt | heq | hgt
  · rw [List.getD_append _ _ _ _ hlt, if_neg (by omega)]
  · rw [List.getD_append_right _ _ _ _ (by omega), if_pos heq, heq, Nat.sub_self]
    rfl
  · rw [List.getD_eq_default _ _ (by rw [List.length_append, List.length_singleton]; omega),
      List.getD_eq_default _ _ (by omega), if_neg (by omega)]

theorem slices_feed (f : Feed) :
    (h.feed highbit cap kept search f).slices = h.slices ++ [f.slice] := by
  simp only [feed]
  split <;> rfl

/-- Every bit is the bit of its own slice, on a path that ended after it. -/
def Chronological (highbit : Nat) (h : UnboundedHistory) : Prop :=
  ∀ u, u < h.bits.length → ∃ n state, u < n ∧ n ≤ h.slices.length ∧
    h.bits[u]? = some (pathBit h.slice highbit n state u)

/-- Later slices do not change the bit of a path. -/
theorem pathBit_push (s : Nat → UInt8) {n u : Nat} (hn : n ≤ h.slices.length) (hu : u < n)
    (state : Nat) :
    pathBit (h.push s).slice highbit n state u = pathBit h.slice highbit n state u := by
  have hbits : pathBits (h.push s).slice highbit n state u 1 =
      pathBits h.slice highbit n state u 1 :=
    HistoryBuffer.pathBits_window (fun v _ hv => by rw [slice_push, if_neg (by omega)]) (by omega)
  rw [pathBits, pathBits, List.range_one, List.map_singleton, List.map_singleton] at hbits
  exact (List.cons.inj hbits).1

theorem chronological_push (hbits : Chronological highbit h) (s : Nat → UInt8) :
    Chronological highbit (h.push s) := by
  intro u hu
  obtain ⟨n, state, hlt, hn, hbit⟩ := hbits u hu
  refine ⟨n, state, hlt, ?_, ?_⟩
  · rw [length_push]
    omega
  · rw [pathBit_push s hn hlt]
    exact hbit

theorem chronological_traceback (hbits : Chronological highbit h) (kept state : Nat) :
    Chronological highbit (h.traceback highbit kept state) := by
  intro u hu
  by_cases hold : u < h.bits.length
  · obtain ⟨n, p, hlt, hn, hbit⟩ := hbits u hold
    refine ⟨n, p, hlt, hn, ?_⟩
    rw [traceback, List.getElem?_append_left hold]
    exact hbit
  · rw [traceback, List.length_append, HistoryBuffer.pathBits_length] at hu
    refine ⟨h.slices.length, state, by omega, Nat.le_refl _, ?_⟩
    rw [traceback, List.getElem?_append_right (by omega), pathBits, List.getElem?_map,
      List.getElem?_range (by omega), Option.map_some, Nat.add_sub_cancel' (by omega)]
    rfl

theorem chronological_feed (hbits : Chronological highbit h) (f : Feed) :
    Chronological highbit (h.feed highbit cap kept search f) := by
  simp only [feed]
  split
  next => exact chronological_traceback (chronological_push hbits f.slice) kept _
  next => exact chronological_push hbits f.slice

/-- The slices and the bits of a whole run. -/
theorem run_feed (highbit cap kept : Nat) (search : (Nat → UInt16) → Nat → Nat)
    (feeds : List Feed) :
    (feeds.foldl (fun h => h.feed highbit cap kept search) empty).slices = feeds.map Feed.slice ∧
      Chronological highbit (feeds.foldl (fun h => h.feed highbit cap kept search) empty) := by
  induction feeds using List.reverseRecOn with
  | nil => exact ⟨rfl, fun u hu => absurd hu (Nat.not_lt_zero u)⟩
  | append_singleton feeds f ih =>
    obtain ⟨hslices, hbits⟩ := ih
    rw [List.foldl_append, List.foldl_cons, List.foldl_nil, slices_feed, hslices, List.map_append]
    exact ⟨rfl, chronological_feed hbits f⟩

theorem length_flush (hle : h.bits.length ≤ h.slices.length) :
    (h.flush highbit).bits.length = h.slices.length := by
  rw [flush, traceback, List.length_append, HistoryBuffer.pathBits_length]
  omega

end UnboundedHistory

/-! ## The ring -/

namespace HistoryBuffer

variable {buf : HistoryBuffer} {msg : Nat → UInt8} {before : List Bool}
  {output : BitWriter} {h : UnboundedHistory} {n : Nat}

/-- Stores a slice and has it processed. -/
def feed (neon : Bool) (s : HistoryBuffer × BitWriter) : Feed → HistoryBuffer × BitWriter
  | .process slice distances =>
    let r := (s.1.setSlice slice).process neon distances s.2
    (r.buf, r.output)
  | .processSkip slice distances skip =>
    let r := (s.1.setSlice slice).processSkip neon distances s.2 skip
    (r.buf, r.output)

theorem feed_eq (neon : Bool) (s : HistoryBuffer × BitWriter) (f : Feed) :
    feed neon s f =
      (((s.1.setSlice f.slice).processSkip neon f.distances s.2 f.skip).buf,
        ((s.1.setSlice f.slice).processSkip neon f.distances s.2 f.skip).output) := by
  cases f <;> rfl

/-- The slots of the slices without a bit hold these slices, and the bits are written. -/
structure Refines (msg : Nat → UInt8) (before : List Bool) (h : UnboundedHistory)
    (s : HistoryBuffer × BitWriter) : Prop where
  at_n : At s.1 h.slices.length
  len_eq : h.bits.length + s.1.len = h.slices.length
  min_lt : s.1.minTracebackLength < s.1.cap
  len_lt : s.1.len < s.1.cap
  window : ∀ u, h.bits.length ≤ u → u < h.slices.length → s.1.ring u = h.slice u
  holds : BitWriter.Holds msg (before ++ h.bits) s.2

/-- The window with the slice that is stored next. -/
theorem window_push {s : HistoryBuffer × BitWriter} (hs : Refines msg before h s)
    (slice : Nat → UInt8) {u : Nat} (hfirst : h.bits.length ≤ u) (hlast : u ≤ h.slices.length) :
    (s.1.setSlice slice).ring u = (h.push slice).slice u := by
  have hlen := hs.len_eq
  have hlt := hs.len_lt
  rw [ring_setSlice hs.at_n slice hlast (by omega), UnboundedHistory.slice_push]
  by_cases hnew : u = h.slices.length
  · rw [if_pos hnew, if_pos hnew]
  · rw [if_neg hnew, if_neg hnew]
    exact hs.window u hfirst (by omega)

/-- The bits of a burst are those the list gives. -/
theorem burstBits_eq {s : HistoryBuffer × BitWriter} (hs : Refines msg before h s) (neon : Bool)
    (f : Feed) (hfull : s.1.len + 1 = s.1.cap) :
    (s.1.setSlice f.slice).burstBits neon h.slices.length f.distances f.skip =
      pathBits (h.push f.slice).slice s.1.highbit (h.slices.length + 1)
        (s.1.search neon f.distances f.skip) h.bits.length
        (h.slices.length + 1 - s.1.minTracebackLength - h.bits.length) := by
  have hlen := hs.len_eq
  have hmin := hs.min_lt
  have hfirst : h.slices.length + 1 - s.1.cap = h.bits.length := by omega
  have hcount : s.1.cap - s.1.minTracebackLength =
      h.slices.length + 1 - s.1.minTracebackLength - h.bits.length := by omega
  have hburst : (s.1.setSlice f.slice).burstBits neon h.slices.length f.distances f.skip =
      pathBits (s.1.setSlice f.slice).ring s.1.highbit (h.slices.length + 1)
        (s.1.search neon f.distances f.skip) (h.slices.length + 1 - s.1.cap)
        (s.1.cap - s.1.minTracebackLength) := if_pos hfull
  rw [hburst, hfirst, hcount]
  exact pathBits_window (fun u hu hlt => window_push hs f.slice hu (by omega)) (by omega)

/-- One slice in both histories. -/
theorem refines_feed {s : HistoryBuffer × BitWriter} (hs : Refines msg before h s) (neon : Bool)
    (f : Feed) :
    Refines msg before
      (h.feed s.1.highbit s.1.cap s.1.minTracebackLength (s.1.search neon) f) (feed neon s f) := by
  have hlen := hs.len_eq
  have hlt := hs.len_lt
  have hmin := hs.min_lt
  have hat := at_setSlice hs.at_n f.slice
  have hstep := processes_processSkip neon hat (Nat.le_of_lt hmin) hs.holds f.distances f.skip
  rw [feed_eq]
  generalize (s.1.setSlice f.slice).processSkip neon f.distances s.2 f.skip = r at hstep
  have hnext := hstep.at_succ hat (Nat.le_of_lt hmin)
  have hsizes := hstep.sameSizes
  have hbufLen := hstep.len_setSlice
  have hout := hstep.output_holds
  have hminNext : r.buf.minTracebackLength < r.buf.cap := by
    rw [hsizes.minTracebackLength_eq, hsizes.cap_eq]
    exact hmin
  have hsame : ∀ u, h.bits.length ≤ u → u < h.slices.length + 1 →
      r.buf.ring u = (h.push f.slice).slice u := by
    intro u hfirst hlast
    rw [hstep.ring_eq]
    exact window_push hs f.slice hfirst (by omega)
  by_cases hfull : s.1.len + 1 = s.1.cap
  · -- the ring is full exactly when the list traces back
    rw [if_pos hfull] at hbufLen
    have hcond : (h.push f.slice).slices.length = (h.push f.slice).bits.length + s.1.cap := by
      rw [UnboundedHistory.length_push, UnboundedHistory.bits_push]
      omega
    rw [UnboundedHistory.feed, if_pos hcond, UnboundedHistory.traceback]
    refine ⟨?_, ?_, hminNext, ?_, ?_, ?_⟩
    · simpa using hnext
    · simp only [UnboundedHistory.length_push, UnboundedHistory.bits_push, List.length_append,
        pathBits_length, hbufLen]
      omega
    · simp only [hbufLen, hsizes.cap_eq]
      exact hmin
    · intro u hfirst hlast
      simp only [UnboundedHistory.length_push, UnboundedHistory.bits_push, List.length_append]
        at hfirst hlast
      exact hsame u (by omega) hlast
    · rw [burstBits_eq hs neon f hfull] at hout
      rw [← List.append_assoc, UnboundedHistory.length_push]
      exact hout
  · -- no burst: both histories only store the slice
    rw [if_neg hfull] at hbufLen
    have hcond : ¬ (h.push f.slice).slices.length = (h.push f.slice).bits.length + s.1.cap := by
      rw [UnboundedHistory.length_push, UnboundedHistory.bits_push]
      omega
    have hnone : (s.1.setSlice f.slice).burstBits neon h.slices.length f.distances f.skip = [] :=
      if_neg hfull
    rw [hnone, List.append_nil] at hout
    rw [UnboundedHistory.feed, if_neg hcond]
    refine ⟨?_, ?_, hminNext, ?_, ?_, hout⟩
    · rw [UnboundedHistory.length_push]
      exact hnext
    · rw [UnboundedHistory.length_push, UnboundedHistory.bits_push, hbufLen]
      omega
    · rw [hbufLen, hsizes.cap_eq]
      exact Nat.lt_of_le_of_ne hlt hfull
    · intro u hfirst hlast
      rw [UnboundedHistory.length_push] at hlast
      exact hsame u hfirst hlast

theorem refines_reset (buf : HistoryBuffer) (hmin : buf.minTracebackLength < buf.cap)
    (h : BitWriter.Holds msg before output) :
    Refines msg before .empty (buf.reset, output) where
  at_n := ⟨Nat.zero_lt_of_lt hmin, (Nat.zero_mod _).symm, Nat.le_refl 0⟩
  len_eq := rfl
  min_lt := hmin
  len_lt := Nat.zero_lt_of_lt hmin
  window := fun _ _ hlast => absurd hlast (Nat.not_lt_zero _)
  holds := by
    rw [UnboundedHistory.empty, List.append_nil]
    exact h

theorem refines_flush {s : HistoryBuffer × BitWriter} (hs : Refines msg before h s) :
    BitWriter.Holds msg (before ++ (h.flush s.1.highbit).bits) (s.1.flush s.2).2 := by
  have hlen := hs.len_eq
  obtain ⟨-, hholds⟩ := holds_traceback (p := 0) hs.at_n (Nat.zero_le _) hs.holds
  rw [show h.slices.length - s.1.len = h.bits.length by omega,
    show s.1.len - 0 = h.slices.length - 0 - h.bits.length by omega,
    pathBits_window hs.window (by omega), List.append_assoc] at hholds
  exact hholds

/-! ## What a traceback reads -/

theorem iterate_prevIndex (hat : At buf n) {k : Nat} (hk : k ≤ n) :
    buf.prevIndex^[k] buf.index = (n - k) % buf.cap := by
  induction k with
  | zero => exact hat.index_eq
  | succ k ih =>
    rw [Function.iterate_succ_apply', ih (by omega), show n - k = n - (k + 1) + 1 by omega,
      prevIndex_mod hat.cap_pos]

/-- Of a traceback that fetches no bits from the youngest `kept` slices: its step `k` reads slot
    `prevIndex^[k + 1]`, which holds the slice pushed as long ago, and what it fetches fits into
    the array of `cap` bits. -/
structure Reads (slices : List (Nat → UInt8)) (kept : Nat) (buf : HistoryBuffer) : Prop where
  slot : ∀ k, k < max kept buf.len → k < slices.length ∧
    slices[slices.length - 1 - k]? = some (buf.history (buf.prevIndex^[k + 1] buf.index))
  fetched_le : ∀ state, (buf.traced state kept).fetchedIndex ≤ buf.cap

theorem reads_of_window {kept : Nat} (hat : At buf h.slices.length) (hkept : kept ≤ buf.len)
    (hcap : buf.len ≤ buf.cap)
    (hwindow : ∀ u, h.slices.length - buf.len ≤ u → u < h.slices.length → buf.ring u = h.slice u) :
    Reads h.slices kept buf where
  slot := fun k hk => by
    have hle := hat.len_le
    have hlt : k < h.slices.length := by omega
    have hslice := hwindow (h.slices.length - 1 - k) (by omega) (by omega)
    rw [ring] at hslice
    refine ⟨hlt, ?_⟩
    rw [iterate_prevIndex hat (by omega),
      show h.slices.length - (k + 1) = h.slices.length - 1 - k by omega, hslice,
      UnboundedHistory.slice, List.getD_eq_getElem _ _ (by omega),
      List.getElem?_eq_getElem (by omega)]
  fetched_le := fun state => by
    rw [(traced_traced hat hkept).fetchedIndex_eq]
    omega

/-! ## Whole runs -/

theorem sameSizes_feed (neon : Bool) (s : HistoryBuffer × BitWriter) (f : Feed) :
    SameSizes (feed neon s f).1 s.1 := by
  rw [feed_eq, processSkip_eq]
  split <;> exact ⟨rfl, rfl, rfl, rfl⟩

/-- The buffers a program can hold. -/
inductive Allocated (minTraceback groupLength : Nat) : HistoryBuffer → Prop
  | create (renormalizeInterval numStates highbit : Nat) (fetched : Nat → UInt8) :
      Allocated minTraceback groupLength
        (create minTraceback groupLength renormalizeInterval numStates highbit fetched)
  | reset {buf : HistoryBuffer} (hbuf : Allocated minTraceback groupLength buf) :
      Allocated minTraceback groupLength buf.reset
  | feed {buf : HistoryBuffer} (hbuf : Allocated minTraceback groupLength buf) (neon : Bool)
      (output : BitWriter) (f : Feed) :
      Allocated minTraceback groupLength (HistoryBuffer.feed neon (buf, output) f).1
  | flush {buf : HistoryBuffer} (hbuf : Allocated minTraceback groupLength buf)
      (output : BitWriter) : Allocated minTraceback groupLength (buf.flush output).1

theorem allocated_sizes {minTraceback groupLength : Nat}
    (hbuf : Allocated minTraceback groupLength buf) :
    buf.minTracebackLength = minTraceback ∧ buf.cap = minTraceback + groupLength := by
  induction hbuf with
  | create => exact ⟨rfl, rfl⟩
  | reset _ ih => exact ih
  | @feed buf _ neon output f ih =>
    have hsizes := sameSizes_feed neon (buf, output) f
    exact ⟨hsizes.minTracebackLength_eq.trans ih.1, hsizes.cap_eq.trans ih.2⟩
  | flush _ _ ih => exact ih

/-- The ring and the list after the same slices. -/
theorem refines_run (hs : Refines msg before h (buf, output)) (neon : Bool) (feeds : List Feed) :
    SameSizes (feeds.foldl (feed neon) (buf, output)).1 buf ∧
      Refines msg before
        (feeds.foldl
          (fun h => h.feed buf.highbit buf.cap buf.minTracebackLength (buf.search neon)) h)
        (feeds.foldl (feed neon) (buf, output)) := by
  induction feeds using List.reverseRecOn with
  | nil => exact ⟨⟨rfl, rfl, rfl, rfl⟩, hs⟩
  | append_singleton feeds f ih =>
    obtain ⟨hsizes, hrun⟩ := ih
    rw [List.foldl_append, List.foldl_append, List.foldl_cons, List.foldl_cons, List.foldl_nil,
      List.foldl_nil]
    generalize feeds.foldl (feed neon) (buf, output) = s at hsizes hrun
    have hsearch : s.1.search neon = buf.search neon := by
      funext distances skip
      simp only [search, hsizes.numStates_eq]
    have hstep := refines_feed hrun neon f
    rw [hsizes.highbit_eq, hsizes.cap_eq, hsizes.minTracebackLength_eq, hsearch] at hstep
    have hnext := sameSizes_feed neon s f
    exact ⟨⟨hnext.minTracebackLength_eq.trans hsizes.minTracebackLength_eq,
      hnext.cap_eq.trans hsizes.cap_eq, hnext.numStates_eq.trans hsizes.numStates_eq,
      hnext.highbit_eq.trans hsizes.highbit_eq⟩, hstep⟩

/-- The tracebacks of a run: in the call that fills the buffer, and in the flush. -/
theorem reads_run {s : HistoryBuffer × BitWriter} (hs : Refines msg before h s) :
    (∀ f : Feed, s.1.len + 1 = s.1.cap →
        Reads (h.slices ++ [f.slice]) s.1.minTracebackLength (s.1.setSlice f.slice).advance) ∧
      Reads h.slices 0 s.1 := by
  have hlen := hs.len_eq
  have hlt := hs.len_lt
  have hmin := hs.min_lt
  constructor
  · intro f hfull
    have hat := at_setSlice hs.at_n f.slice
    have hadvance : (s.1.setSlice f.slice).advance.len = s.1.cap := hfull
    have hwindow : ∀ u, (h.push f.slice).slices.length - s.1.cap ≤ u →
        u < (h.push f.slice).slices.length →
        (s.1.setSlice f.slice).ring u = (h.push f.slice).slice u := by
      intro u hfirst hlast
      rw [UnboundedHistory.length_push] at hfirst hlast
      exact window_push hs f.slice (by omega) (by omega)
    refine reads_of_window (h := h.push f.slice) ?_ ?_ ?_ ?_
    · rw [UnboundedHistory.length_push]
      exact at_advance hat
    · rw [hadvance]
      omega
    · exact Nat.le_of_eq hadvance
    · rw [hadvance]
      exact hwindow
  · exact reads_of_window hs.at_n (Nat.zero_le _) (Nat.le_of_lt hlt)
      fun u hfirst hlast => hs.window u (by omega) hlast

/-- From a reset on, whatever slices and metrics are processed: the ring writes the bits of
    the unbounded history, the flush completes them to one bit a slice, in order of time, and
    every traceback reads slices written since the reset and fetches at most `cap` bits. -/
theorem ring_refines_unbounded {minTraceback groupLength : Nat} (hgroup : 1 ≤ groupLength)
    (hbuf : Allocated minTraceback groupLength buf) (hout : BitWriter.Holds msg before output)
    (neon : Bool) (feeds : List Feed) :
    let s := feeds.foldl (feed neon) (buf.reset, output)
    let h := feeds.foldl (fun h => h.feed buf.highbit (minTraceback + groupLength) minTraceback
      (buf.search neon)) UnboundedHistory.empty
    let all := h.flush buf.highbit
    BitWriter.Holds msg (before ++ h.bits) s.2 ∧
      BitWriter.Holds msg (before ++ all.bits) (s.1.flush s.2).2 ∧
      all.slices = feeds.map Feed.slice ∧ all.bits.length = feeds.length ∧
      all.Chronological buf.highbit ∧
      (∀ f : Feed, s.1.len + 1 = s.1.cap →
        Reads ((feeds ++ [f]).map Feed.slice) minTraceback (s.1.setSlice f.slice).advance) ∧
      Reads (feeds.map Feed.slice) 0 s.1 := by
  intro s h all
  obtain ⟨hmin, hcap⟩ := allocated_sizes hbuf
  obtain ⟨hslices, hchronological⟩ := UnboundedHistory.run_feed buf.highbit
    (minTraceback + groupLength) minTraceback (buf.search neon) feeds
  obtain ⟨hsizes, hrun⟩ := refines_run (refines_reset buf (by omega) hout) neon feeds
  rw [show buf.reset.highbit = buf.highbit from rfl, show buf.reset.cap = _ from hcap,
    show buf.reset.minTracebackLength = _ from hmin,
    show buf.reset.search neon = buf.search neon from rfl] at hrun
  have hall := @UnboundedHistory.length_flush buf.highbit h (Nat.le.intro hrun.len_eq)
  have hflush := refines_flush hrun
  obtain ⟨hburst, hrest⟩ := reads_run hrun
  rw [hsizes.highbit_eq] at hflush
  rw [hsizes.minTracebackLength_eq, show buf.reset.minTracebackLength = _ from hmin, hslices]
    at hburst
  rw [hslices] at hrest
  refine ⟨hrun.holds, hflush, hslices, ?_, ?_, ?_, hrest⟩
  · rw [hall, hslices, List.length_map]
  · exact UnboundedHistory.chronological_traceback hchronological 0 0
  · intro f hfull
    rw [List.map_append]
    exact hburst f hfull

/-- A ring of two slots. -/
def sampleRing : HistoryBuffer := create 1 1 128 64 64 fun _ => 0

def sampleFeeds : List Feed :=
  [.process (fun _ => 1) fun _ => 0, .process (fun _ => 0) fun _ => 5,
    .processSkip (fun s => if s = 0 then 1 else 0) (fun s => UInt16.ofNat s) 2]

/-- Three slices through it: two bits, the third at the flush, and any further slice is read
    with the one before it. -/
theorem ring_refines_unbounded_sampleFeeds :
    let s := sampleFeeds.foldl (feed false)
      (sampleRing.reset, BitWriter.reconfigure (fun _ => 0) 8)
    BitWriter.Holds (fun _ => 0) [true, false] s.2 ∧
      BitWriter.Holds (fun _ => 0) [true, false, true] (s.1.flush s.2).2 ∧
      ∀ f : Feed, Reads ((sampleFeeds ++ [f]).map Feed.slice) 1
        (s.1.setSlice f.slice).advance := by
  intro s
  have hring : Allocated 1 1 sampleRing := .create 128 64 64 fun _ => 0
  obtain ⟨hbits, hall, -, -, -, hreads, -⟩ := ring_refines_unbounded (by omega) hring
    (BitWriter.holds_reconfigure (fun _ => 0) 8) false sampleFeeds
  have hwritten : (sampleFeeds.foldl (fun h => h.feed sampleRing.highbit (1 + 1) 1
      (sampleRing.search false)) UnboundedHistory.empty).bits = [true, false] := by
    decide +kernel
  have hflushed : ((sampleFeeds.foldl (fun h => h.feed sampleRing.highbit (1 + 1) 1
      (sampleRing.search false)) UnboundedHistory.empty).flush sampleRing.highbit).bits =
        [true, false, true] := by
    decide +kernel
  rw [hwritten] at hbits
  rw [hflushed] at hall
  have hfull : s.1.len + 1 = s.1.cap := by decide +kernel
  exact ⟨hbits, hall, fun f => hreads f hfull⟩

end HistoryBuffer

end RyFi.Conv
