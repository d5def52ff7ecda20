import RyFi.Conv.HistoryBuffer
import RyFi.Conv.BitList

/-! # The ring of slices is a window on all slices

After `n` slices since the reset, slice `u` sits in slot `u % cap` as long as it is among the
last `cap` ones.  `walkBack` and `pathBits` follow the history bits through slices numbered
from the reset, without a ring, and `holds_traceback` says that a traceback writes exactly
the bits they give, in order of time.
-/

namespace RyFi.Conv

open CLoop

namespace HistoryBuffer

/-! ## Paths through numbered slices -/

section Paths

variable (slice : Nat → Nat → UInt8) (highbit n p : Nat)

/-- The state `k` slices before the end of the path that ends in `p` after `n` slices. -/
def walkBack : Nat → Nat
  | 0 => p
  | k + 1 =>
    let state := walkBack k
    (state ||| if slice (n - 1 - k) state ≠ 0 then highbit else 0) >>> 1

/-- The bit of slice `u` on that path. -/
def pathBit (u : Nat) : Bool :=
  decide (slice u (walkBack slice highbit n p (n - 1 - u)) ≠ 0 ∧ highbit ≠ 0)

/-- The bits of the slices `first, …, first + len - 1`. -/
def pathBits (first len : Nat) : List Bool :=
  (List.range len).map fun j => pathBit slice highbit n p (first + j)

@[simp] theorem pathBits_length (first len : Nat) :
    (pathBits slice highbit n p first len).length = len := by
  simp [pathBits]

variable {slice highbit n p}

/-- A path only depends on the entries it runs over. -/
theorem walkBack_congr {slice' : Nat → Nat → UInt8} {live : Nat → Nat → Prop} (depth : Nat)
    (hdepth : depth ≤ n) (hlive : live n p)
    (hback : ∀ u s, live (u + 1) s → live u ((s ||| if slice u s ≠ 0 then highbit else 0) >>> 1))
    (hsame : ∀ u s, n - depth ≤ u → u < n → live (u + 1) s → slice' u s = slice u s) {k : Nat}
    (hk : k ≤ depth) :
    walkBack slice' highbit n p k = walkBack slice highbit n p k ∧
      live (n - k) (walkBack slice highbit n p k) := by
  induction k with
  | zero => exact ⟨rfl, hlive⟩
  | succ k ih =>
    obtain ⟨heq, hstate⟩ := ih (by omega)
    have htime : n - k = n - 1 - k + 1 := by omega
    rw [htime] at hstate
    have hslice := hsame (n - 1 - k) _ (by omega) (by omega) hstate
    simp only [walkBack, heq, hslice]
    refine ⟨trivial, ?_⟩
    rw [show n - (k + 1) = n - 1 - k by omega]
    exact hback _ _ hstate

theorem pathBits_congr {slice' : Nat → Nat → UInt8} (live : Nat → Nat → Prop) {first len : Nat}
    (hlast : first + len ≤ n) (hlive : live n p)
    (hback : ∀ u s, live (u + 1) s → live u ((s ||| if slice u s ≠ 0 then highbit else 0) >>> 1))
    (hsame : ∀ u s, first ≤ u → u < n → live (u + 1) s → slice' u s = slice u s) :
    pathBits slice' highbit n p first len = pathBits slice highbit n p first len := by
  refine List.map_congr_left fun j hj => ?_
  have hj := List.mem_range.mp hj
  obtain ⟨heq, hstate⟩ := walkBack_congr (n - first) (by omega) hlive hback
    (fun u s hu => hsame u s (by omega)) (show n - 1 - (first + j) ≤ n - first by omega)
  rw [show n - (n - 1 - (first + j)) = first + j + 1 by omega] at hstate
  simp only [pathBit, heq, hsame _ _ (by omega) (by omega) hstate]

/-- A path over slices that are the same. -/
theorem pathBits_window {slice' : Nat → Nat → UInt8} {first len : Nat}
    (hsame : ∀ u, first ≤ u → u < n → slice' u = slice u) (hlast : first + len ≤ n) :
    pathBits slice' highbit n p first len = pathBits slice highbit n p first len :=
  pathBits_congr (fun _ _ => True) hlast trivial (fun _ _ _ => trivial)
    fun u _ hu hlt _ => by rw [hsame u hu hlt]

end Paths

/-! ## Tracebacks -/

/-- The slot of slice `u`. -/
def ring (buf : HistoryBuffer) (u : Nat) : Nat → UInt8 := buf.history (u % buf.cap)

/-- `n` slices were processed since the reset. -/
structure At (buf : HistoryBuffer) (n : Nat) : Prop where
  cap_pos : 0 < buf.cap
  index_eq : buf.index = n % buf.cap
  len_le : buf.len ≤ n

variable {buf : HistoryBuffer} {n p : Nat} {msg : Nat → UInt8} {bits : List Bool}
  {output : BitWriter}

theorem prevIndex_mod (hcap : 0 < buf.cap) (u : Nat) :
    buf.prevIndex ((u + 1) % buf.cap) = u % buf.cap := by
  have hlt := Nat.mod_lt u hcap
  have hmod : (u + 1) % buf.cap = (u % buf.cap + 1) % buf.cap := (Nat.mod_add_mod u buf.cap 1).symm
  simp only [prevIndex]
  by_cases hwrap : u % buf.cap + 1 = buf.cap
  · rw [hmod, hwrap, Nat.mod_self, if_pos rfl]
    omega
  · rw [hmod, Nat.mod_eq_of_lt (by omega), if_neg (by omega)]
    omega

theorem slot_ne {cap u v : Nat} (hlt : u < v) (hnear : v < u + cap) : u % cap ≠ v % cap := by
  intro heq
  have hmod := Nat.sub_mod_eq_zero_of_mod_eq heq.symm
  rw [Nat.mod_eq_of_lt (by omega)] at hmod
  omega

/-- Storing a slice changes no slot of the window but its own. -/
theorem ring_setSlice (hat : At buf n) (slice : Nat → UInt8) {u : Nat} (hu : u ≤ n)
    (hnear : n < u + buf.cap) :
    (buf.setSlice slice).ring u = if u = n then slice else buf.ring u := by
  simp only [ring, setSlice, hat.index_eq, Function.update_apply]
  by_cases hnew : u = n
  · rw [hnew, if_pos rfl, if_pos rfl]
  · rw [if_neg (slot_ne (by omega) hnear), if_neg hnew]

/-- Where the traceback stands after `k` slices, the first `skipped` of them not fetched. -/
structure Traced (buf : HistoryBuffer) (n p skipped k : Nat) (s : Trace) : Prop where
  index_eq : s.index = (n - k) % buf.cap
  bestpath_eq : s.bestpath = walkBack buf.ring buf.highbit n p k
  fetchedIndex_eq : s.fetchedIndex = k - skipped
  fetched_eq : ∀ i, i < k - skipped →
    s.fetched i = ofBool (pathBit buf.ring buf.highbit n p (n - 1 - (skipped + i)))

theorem traced_skip (hcap : 0 < buf.cap) {k : Nat} (hk : k < n) {s : Trace}
    (h : Traced buf n p k k s) : Traced buf n p (k + 1) (k + 1) (buf.traceSkip s) := by
  have hindex : buf.prevIndex s.index = (n - 1 - k) % buf.cap := by
    rw [h.index_eq, show n - k = n - 1 - k + 1 by omega, prevIndex_mod hcap]
  refine ⟨?_, ?_, ?_, ?_⟩
  · rw [show n - (k + 1) = n - 1 - k by omega]
    exact hindex
  · simp only [traceSkip, hindex, h.bestpath_eq]
    rfl
  · rw [Nat.sub_self]
    exact h.fetchedIndex_eq.trans (Nat.sub_self k)
  · intro i hi
    omega

theorem traced_fetch (hcap : 0 < buf.cap) {skipped k : Nat} (hle : skipped ≤ k) (hk : k < n)
    {s : Trace} (h : Traced buf n p skipped k s) :
    Traced buf n p skipped (k + 1) (buf.traceFetch s) := by
  have hindex : buf.prevIndex s.index = (n - 1 - k) % buf.cap := by
    rw [h.index_eq, show n - k = n - 1 - k + 1 by omega, prevIndex_mod hcap]
  refine ⟨?_, ?_, ?_, ?_⟩
  · rw [show n - (k + 1) = n - 1 - k by omega]
    exact hindex
  · simp only [traceFetch, hindex, h.bestpath_eq]
    rfl
  · simp only [traceFetch, h.fetchedIndex_eq]
    omega
  · intro i hi
    simp only [traceFetch, h.fetchedIndex_eq, Function.update_apply]
    by_cases hlast : i = k - skipped
    · have hslot : buf.history ((n - 1 - k) % buf.cap) = buf.ring (n - 1 - k) := rfl
      rw [if_pos hlast, hindex, h.bestpath_eq, hslot,
        show n - 1 - (skipped + i) = n - 1 - k by omega]
      simp only [pathBit, ofBool, show n - 1 - (n - 1 - k) = k by omega, decide_eq_true_eq]
    · rw [if_neg hlast]
      exact h.fetched_eq i (by omega)

/-- The variables of the traceback when its loops have ended. -/
def traced (buf : HistoryBuffer) (p skipped : Nat) : Trace :=
  forLoop skipped buf.len (fun _ s => buf.traceFetch s)
    (forLoop 0 skipped (fun _ s => buf.traceSkip s) ⟨buf.index, p, buf.fetched, 0⟩)

theorem traced_traced (hat : At buf n) {skipped : Nat} (hskip : skipped ≤ buf.len) :
    Traced buf n p skipped buf.len (buf.traced p skipped) := by
  have hlen := hat.len_le
  have hstart : Traced buf n p 0 0 ⟨buf.index, p, buf.fetched, 0⟩ :=
    ⟨hat.index_eq, rfl, rfl, fun i hi => absurd hi (by omega)⟩
  have hskipped := @forLoop_induct _ 0 skipped (fun _ s => buf.traceSkip s) _
    (fun k s => Traced buf n p k k s) (Nat.zero_le skipped) hstart
    fun k s _ hk hs => traced_skip hat.cap_pos (by omega) hs
  exact @forLoop_induct _ skipped buf.len (fun _ s => buf.traceFetch s) _
    (fun k s => Traced buf n p skipped k s) hskip hskipped
    fun k s hle hk hs => traced_fetch hat.cap_pos hle (by omega) hs

/-- The traceback leaves the ring alone and writes the bits of all slices but the youngest,
    in order of time. -/
theorem holds_traceback (hat : At buf n) {skipped : Nat} (hskip : skipped ≤ buf.len)
    (h : BitWriter.Holds msg bits output) :
    (buf.traceback p skipped output).1 =
        { buf with fetched := (buf.traceback p skipped output).1.fetched, len := skipped } ∧
      BitWriter.Holds msg
        (bits ++ pathBits buf.ring buf.highbit n p (n - buf.len) (buf.len - skipped))
        (buf.traceback p skipped output).2 := by
  have hlen := hat.len_le
  have hfetched := @traced_traced buf n p hat skipped hskip
  rw [traced] at hfetched
  simp only [traceback]
  generalize forLoop skipped buf.len (fun _ s => buf.traceFetch s)
    (forLoop 0 skipped (fun _ s => buf.traceSkip s) ⟨buf.index, p, buf.fetched, 0⟩) = s at hfetched
  constructor
  · rw [hfetched.fetchedIndex_eq, Nat.sub_sub_self hskip]
  · rw [hfetched.fetchedIndex_eq]
    have hwritten := BitWriter.holds_writeBitlistReversed h hfetched.fetched_eq
    have hbits : BitWriter.downFrom
          (fun i => pathBit buf.ring buf.highbit n p (n - 1 - (skipped + i))) (buf.len - skipped) =
        pathBits buf.ring buf.highbit n p (n - buf.len) (buf.len - skipped) := by
      refine List.map_congr_left fun j hj => ?_
      have hj := List.mem_range.mp hj
      change pathBit _ _ _ _ (n - 1 - (skipped + (buf.len - skipped - 1 - j))) = _
      rw [show n - 1 - (skipped + (buf.len - skipped - 1 - j)) = n - buf.len + j by omega]
    rw [← hbits]
    exact hwritten

/-! ## Processing a slice -/

/-- The slice just filled, with the buffer's bookkeeping moved on. -/
def advance (buf : HistoryBuffer) : HistoryBuffer :=
  { buf with
    index := if buf.index + 1 = buf.cap then 0 else buf.index + 1
    renormalizeCounter :=
      if buf.renormalizeCounter + 1 = buf.renormalizeInterval then 0
      else buf.renormalizeCounter + 1
    len := buf.len + 1 }

/-- The metrics after processing. -/
def processedDistances (neon : Bool) (buf : HistoryBuffer) (distances : Nat → UInt16)
    (skip : Nat) : Nat → UInt16 :=
  if buf.renormalizeCounter + 1 = buf.renormalizeInterval then
    buf.renormalize distances (buf.search neon distances skip)
  else distances

/-- Renormalizing and decoding search the same metrics. -/
theorem processSkip_eq (neon : Bool) (buf : HistoryBuffer) (distances : Nat → UInt16)
    (output : BitWriter) (skip : Nat) :
    buf.processSkip neon distances output skip =
      if buf.len + 1 = buf.cap then
        buf.advance.decodeBurst (buf.processedDistances neon distances skip)
          (buf.search neon distances skip) output
      else ⟨buf.advance, buf.processedDistances neon distances skip, output⟩ := by
  simp only [processSkip, processedDistances]
  by_cases hrenorm : buf.renormalizeCounter + 1 = buf.renormalizeInterval
  · simp only [advance, if_pos hrenorm]
    rfl
  · simp only [advance, if_neg hrenorm]
    rfl

theorem at_advance (hat : At buf n) : At buf.advance (n + 1) := by
  refine ⟨hat.cap_pos, ?_, Nat.succ_le_succ hat.len_le⟩
  have hlt := Nat.mod_lt n hat.cap_pos
  simp only [advance, hat.index_eq]
  rw [← Nat.mod_add_mod]
  split
  next hwrap => rw [hwrap, Nat.mod_self]
  next hwrap => exact (Nat.mod_eq_of_lt (by omega)).symm

/-- The bits a slice causes to be written: those of a full buffer but for the youngest. -/
def burstBits (neon : Bool) (buf : HistoryBuffer) (n : Nat) (distances : Nat → UInt16)
    (skip : Nat) : List Bool :=
  if buf.len + 1 = buf.cap then
    pathBits buf.ring buf.highbit (n + 1) (buf.search neon distances skip) (n + 1 - buf.cap)
      (buf.cap - buf.minTracebackLength)
  else []

theorem burstBits_length (neon : Bool) (buf : HistoryBuffer) (n : Nat)
    (distances : Nat → UInt16) (skip : Nat) :
    (buf.burstBits neon n distances skip).length =
      if buf.len + 1 = buf.cap then buf.cap - buf.minTracebackLength else 0 := by
  simp only [burstBits]
  split <;> simp

/-- What one slice does to the buffer, the metrics and the output. -/
structure Processes (neon : Bool) (buf : HistoryBuffer) (n : Nat) (distances : Nat → UInt16)
    (skip : Nat) (msg : Nat → UInt8) (bits : List Bool) (r : Processed) : Prop where
  buf_eq : r.buf = { buf.advance with
    fetched := r.buf.fetched
    len := if buf.len + 1 = buf.cap then buf.minTracebackLength else buf.len + 1 }
  distances_eq : r.distances = buf.processedDistances neon distances skip
  output_holds : BitWriter.Holds msg (bits ++ buf.burstBits neon n distances skip) r.output

theorem processes_processSkip (neon : Bool) (hat : At buf n)
    (hmin : buf.minTracebackLength ≤ buf.cap) (h : BitWriter.Holds msg bits output)
    (distances : Nat → UInt16) (skip : Nat) :
    Processes neon buf n distances skip msg bits
      (buf.processSkip neon distances output skip) := by
  rw [processSkip_eq]
  by_cases hfull : buf.len + 1 = buf.cap
  · rw [if_pos hfull]
    obtain ⟨hbuf, hholds⟩ := holds_traceback (p := buf.search neon distances skip)
      (at_advance hat) (show buf.minTracebackLength ≤ buf.advance.len by
        rw [show buf.advance.len = buf.len + 1 from rfl]
        omega) h
    refine ⟨?_, rfl, ?_⟩
    · rw [if_pos hfull]
      exact hbuf
    · simp only [burstBits]
      rw [if_pos hfull, ← hfull]
      exact hholds
  · rw [if_neg hfull]
    refine ⟨?_, rfl, ?_⟩
    · rw [if_neg hfull]
      rfl
    · simp only [burstBits]
      rw [if_neg hfull, List.append_nil]
      exact h

/-- The sizes of a buffer, which no call changes. -/
structure SameSizes (buf buf' : HistoryBuffer) : Prop where
  minTracebackLength_eq : buf.minTracebackLength = buf'.minTracebackLength
  cap_eq : buf.cap = buf'.cap
  numStates_eq : buf.numStates = buf'.numStates
  highbit_eq : buf.highbit = buf'.highbit

section Processed

variable {neon : Bool} {distances : Nat → UInt16} {skip : Nat} {r : Processed}

theorem Processes.sameSizes (h : Processes neon buf n distances skip msg bits r) :
    SameSizes r.buf buf := by
  rw [h.buf_eq]
  exact ⟨rfl, rfl, rfl, rfl⟩

theorem Processes.len_eq (h : Processes neon buf n distances skip msg bits r) :
    r.buf.len = if buf.len + 1 = buf.cap then buf.minTracebackLength else buf.len + 1 := by
  rw [h.buf_eq]

theorem Processes.ring_eq (h : Processes neon buf n distances skip msg bits r) :
    r.buf.ring = buf.ring := by
  rw [h.buf_eq]
  rfl

theorem Processes.at_succ (h : Processes neon buf n distances skip msg bits r) (hat : At buf n)
    (hmin : buf.minTracebackLength ≤ buf.cap) : At r.buf (n + 1) := by
  have hnext := at_advance hat
  have hle := hat.len_le
  refine ⟨?_, ?_, ?_⟩
  · rw [h.buf_eq]
    exact hnext.cap_pos
  · rw [h.buf_eq]
    exact hnext.index_eq
  · rw [h.len_eq]
    split <;> omega

end Processed

/-- Storing a slice moves nothing. -/
theorem at_setSlice (hat : At buf n) (slice : Nat → UInt8) : At (buf.setSlice slice) n :=
  ⟨hat.cap_pos, hat.index_eq, hat.len_le⟩

theorem Processes.len_setSlice {slice : Nat → UInt8} {neon : Bool}
    {distances : Nat → UInt16} {skip : Nat} {r : Processed}
    (h : Processes neon (buf.setSlice slice) n distances skip msg bits r) :
    r.buf.len = if buf.len + 1 = buf.cap then buf.minTracebackLength else buf.len + 1 :=
  h.len_eq

/-! ## Counting bits -/

/-- Every processed slice has been written as a bit or is still in the buffer. -/
structure Counts (msg : Nat → UInt8) (n : Nat) (buf : HistoryBuffer) (output : BitWriter) :
    Prop where
  at_n : At buf n
  min_lt : buf.minTracebackLength < buf.cap
  len_lt : buf.len < buf.cap
  holds : ∃ bits, bits.length + buf.len = n ∧ BitWriter.Holds msg bits output

theorem counts_processSkip (h : Counts msg n buf output) (neon : Bool) (slice : Nat → UInt8)
    (distances : Nat → UInt16) (skip : Nat) :
    Counts msg (n + 1) ((buf.setSlice slice).processSkip neon distances output skip).buf
      ((buf.setSlice slice).processSkip neon distances output skip).output := by
  obtain ⟨bits, hlen, hholds⟩ := h.holds
  have hat := at_setSlice h.at_n slice
  have hmin := h.min_lt
  have hlt := h.len_lt
  have hstep := processes_processSkip neon hat (Nat.le_of_lt hmin) hholds distances skip
  have hburst : ((buf.setSlice slice).burstBits neon n distances skip).length =
      if buf.len + 1 = buf.cap then buf.cap - buf.minTracebackLength else 0 :=
    burstBits_length neon (buf.setSlice slice) n distances skip
  have hnext := hstep.len_setSlice
  have hsizes := hstep.sameSizes
  refine ⟨hstep.at_succ hat (Nat.le_of_lt hmin), ?_, ?_, _, ?_, hstep.output_holds⟩
  · rw [hsizes.minTracebackLength_eq, hsizes.cap_eq]
    exact hmin
  · have hcap : ((buf.setSlice slice).processSkip neon distances output skip).buf.cap = buf.cap :=
      hsizes.cap_eq
    rw [hcap, hnext]
    split <;> omega
  · rw [hnext, List.length_append, hburst]
    split <;> omega

theorem counts_flush (h : Counts msg n buf output) :
    ∃ bits, bits.length = n ∧ BitWriter.Holds msg bits (buf.flush output).2 := by
  obtain ⟨bits, hlen, hholds⟩ := h.holds
  refine ⟨_, ?_, (holds_traceback (p := 0) h.at_n (Nat.zero_le _) hholds).2⟩
  rw [List.length_append, pathBits_length]
  omega

end HistoryBuffer

end RyFi.Conv
