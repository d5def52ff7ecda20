import RyFi.Dsp.Resampler

/-! # The FIR filter

`fir.h`: a filter whose taps may be exchanged while it runs.  `History` is what it is for: all
samples so far, and from which on the filter still knows them.  `setTaps` moves the delay line
to its place under the new taps; a longer filter misses what lies before the delay line of the
shorter one, and has zeros there.  As a block of the pipeline the filter keeps its taps.
-/

namespace RyFi.Dsp

open CLoop BlockMachine

variable {T R : Type}

structure FIR (T R : Type) where
  taps : Tap R
  /-- The delay line, with the block that is processed behind it. -/
  buffer : Nat → T

namespace FIR

/-- What may happen to a filter: `process` with a block and what is in the output buffer,
    `setTaps` and `reset`. -/
inductive Op (T R : Type) where
  | process (count : Nat) (input out : Nat → T)
  | setTaps (taps : Tap R)
  | reset

section

variable [Zero T]

/-- `init`; what is behind the delay line is uninitialized. -/
def init (taps : Tap R) (raw : Nat → T) : FIR T R := ⟨taps, setRange raw 0 0 (taps.size - 1)⟩

/-- `setTaps` -/
def setTaps (f : FIR T R) (taps : Tap R) : FIR T R :=
  let oldTC := f.taps.size
  -- the newest samples are at the end of either delay line
  if taps.size < oldTC then
    ⟨taps, copyRange f.buffer 0 f.buffer (oldTC - taps.size) (taps.size - 1)⟩
  else if taps.size > oldTC then
    ⟨taps, setRange (copyRange f.buffer (taps.size - oldTC) f.buffer 0 (oldTC - 1)) 0 0
      (taps.size - oldTC)⟩
  else ⟨taps, f.buffer⟩

/-- `reset` -/
def reset (f : FIR T R) : FIR T R := { f with buffer := setRange f.buffer 0 0 (f.taps.size - 1) }

/-- The dot product at `offset`. -/
def convolve (dotProd : List (T × R) → T) (f : FIR T R) (offset : Nat) : T :=
  dotProd ((List.range f.taps.size).map fun i => (f.buffer (offset + i), f.taps.taps i))

/-- The `memcpy` of a block to `bufStart`. -/
def load (f : FIR T R) (count : Nat) (input : Nat → T) : FIR T R :=
  { f with buffer := copyRange f.buffer (f.taps.size - 1) input 0 count }

/-- `process`: the filter afterwards, and the output buffer. -/
def process (dotProd : List (T × R) → T) (f : FIR T R) (count : Nat) (input out : Nat → T) :
    FIR T R × (Nat → T) :=
  let f := f.load count input
  let out := forLoop 0 count (fun i out => Function.update out i (f.convolve dotProd i)) out
  ({ f with buffer := copyRange f.buffer 0 f.buffer count (f.taps.size - 1) }, out)

/-- The filter afterwards, and the samples that come out. -/
def step (dotProd : List (T × R) → T) (f : FIR T R) : Op T R → FIR T R × List T
  | .process count input out =>
    let r := f.process dotProd count input out
    (r.1, block r.2 count)
  | .setTaps taps => (f.setTaps taps, [])
  | .reset => (f.reset, [])

def run (dotProd : List (T × R) → T) (f : FIR T R) : List (Op T R) → FIR T R × List T
  | [] => (f, [])
  | op :: ops =>
    let (f, out) := f.step dotProd op
    let (f, rest) := run dotProd f ops
    (f, out ++ rest)

end

/-! ## What a filter remembers -/

/-- All samples so far; the filter knows those from number `since` on. -/
structure History (T R : Type) where
  taps : Tap R
  samples : List T
  since : Nat

/-- The signal, as far as it is known. -/
def known [Zero T] (since : Nat) (x : Nat → T) (j : Nat) : T := if since ≤ j then x j else 0

/-- Sample `m` of the filtered signal. -/
def filtered [Zero T] (dotProd : List (T × R) → T) (taps : Tap R) (since : Nat) (l : List T)
    (m : Nat) : T :=
  dotProd ((List.range taps.size).map fun i =>
    (Multirate.past (known since (PolyphaseResampler.signal l)) m (taps.size - 1 - i),
      taps.taps i))

namespace History

variable [Zero T]

/-- More taps than before reach further back than the delay line does. -/
def step (dotProd : List (T × R) → T) (h : History T R) : Op T R → History T R × List T
  | .process count input _ =>
    let samples := h.samples ++ block input count
    ({ h with samples := samples }, (List.range count).map fun i =>
      filtered dotProd h.taps h.since samples (h.samples.length + i))
  | .setTaps taps =>
    ({ h with
        taps := taps
        since :=
          if taps.size > h.taps.size then max h.since (h.samples.length - (h.taps.size - 1))
          else h.since }, [])
  | .reset => ({ h with since := h.samples.length }, [])

def run (dotProd : List (T × R) → T) (h : History T R) : List (Op T R) → History T R × List T
  | [] => (h, [])
  | op :: ops =>
    let (h, out) := h.step dotProd op
    let (h, rest) := run dotProd h ops
    (h, out ++ rest)

end History

/-- The delay line of the filter is the end of the history. -/
structure Remembers [Zero T] (h : History T R) (f : FIR T R) : Prop where
  taps_eq : f.taps = h.taps
  since_le : h.since ≤ h.samples.length
  size_pos : 0 < h.taps.size
  delay : ∀ i, i < h.taps.size - 1 → f.buffer i =
    Multirate.past (known h.since (PolyphaseResampler.signal h.samples)) (h.samples.length + i)
      (h.taps.size - 1)

section

variable [Zero T] (dotProd : List (T × R) → T) {h : History T R} {f : FIR T R}

theorem past_known {since : Nat} {x : Nat → T} {m i : Nat} (hlt : m < since + i) :
    Multirate.past (known since x) m i = 0 := by
  rw [Multirate.past, known]
  split
  · rw [if_neg (by omega)]
  · rfl

/-- Far enough behind the change nothing is missing. -/
theorem past_known_of_le {since : Nat} {x : Nat → T} {m i : Nat} (hle : since + i ≤ m) :
    Multirate.past (known since x) m i = Multirate.past x m i := by
  rw [Multirate.past, Multirate.past, known]
  split
  · rw [if_pos (by omega)]
  · rfl

/-- A delay line that is moved back by `k` is a longer one that knows nothing before it. -/
theorem past_known_lengthen (since : Nat) (x : Nat → T) (m d k j : Nat) :
    Multirate.past (known since x) (m + j) d =
      Multirate.past (known (max since (m - d)) x) (m + (k + j)) (d + k) := by
  rw [Multirate.past, Multirate.past]
  by_cases hback : d ≤ m + j
  · have hplace : m + (k + j) - (d + k) = m + j - d := by omega
    rw [if_pos hback, if_pos (by omega), known, known, hplace]
    by_cases hknown : since ≤ m + j - d
    · rw [if_pos hknown, if_pos (by omega)]
    · rw [if_neg hknown, if_neg (by omega)]
  · rw [if_neg hback, if_neg (by omega)]

theorem remembers_init {taps : Tap R} (hsize : 0 < taps.size) (raw : Nat → T) :
    Remembers ⟨taps, [], 0⟩ (init taps raw) where
  taps_eq := rfl
  since_le := Nat.le_refl 0
  size_pos := hsize
  delay i hi := by
    have hlt : i < taps.size - 1 := hi
    have hzero : Multirate.past (known 0 (PolyphaseResampler.signal ([] : List T))) (0 + i)
        (taps.size - 1) = 0 := past_known (by omega)
    refine Eq.trans ?_ hzero.symm
    exact setRange_inside (Nat.zero_le i) (by omega)

theorem Remembers.reset (hf : Remembers h f) :
    Remembers { h with since := h.samples.length } f.reset where
  taps_eq := hf.taps_eq
  since_le := Nat.le_refl _
  size_pos := hf.size_pos
  delay i hi := by
    have hlt : i < h.taps.size - 1 := hi
    rw [past_known (Nat.add_lt_add_left hi _)]
    exact setRange_inside (Nat.zero_le i) (by rw [hf.taps_eq]; omega)

/-- The delay line and the block behind it. -/
theorem Remembers.window (hf : Remembers h f) (count : Nat) (input : Nat → T) {i : Nat}
    (hi : i < h.taps.size - 1 + count) :
    (f.load count input).buffer i =
      Multirate.past (known h.since (PolyphaseResampler.signal (h.samples ++ block input count)))
        (h.samples.length + i) (h.taps.size - 1) := by
  have hle := hf.since_le
  have hload : (f.load count input).buffer i =
      copyRange f.buffer (h.taps.size - 1) input 0 count i := by
    rw [← hf.taps_eq]
    rfl
  rw [hload]
  by_cases hdelay : i < h.taps.size - 1
  · rw [copyRange_below hdelay, hf.delay i hdelay, Multirate.past, Multirate.past]
    split
    · rw [known, known, PolyphaseResampler.signal_append_left (by omega)]
    · rfl
  · obtain ⟨j, rfl⟩ := Nat.exists_eq_add_of_le (Nat.le_of_not_lt hdelay)
    have hplace : h.samples.length + (h.taps.size - 1 + j) - (h.taps.size - 1) =
        h.samples.length + j := by omega
    rw [copyRange_inside (by omega), Nat.zero_add, Multirate.past, if_pos (by omega), hplace, known,
      if_pos (by omega), PolyphaseResampler.signal_append_right _ _ (by omega)]

/-- A block: every sample that comes out is the filtered one. -/
theorem Remembers.process (hf : Remembers h f) (count : Nat) (input out : Nat → T) :
    Remembers { h with samples := h.samples ++ block input count }
        (f.process dotProd count input out).1 ∧
      ∀ {i}, i < count → (f.process dotProd count input out).2 i =
        filtered dotProd h.taps h.since (h.samples ++ block input count) (h.samples.length + i) := by
  have hpos := hf.size_pos
  have hlen : (h.samples ++ block input count).length = h.samples.length + count := by
    rw [List.length_append, block_length]
  refine ⟨⟨hf.taps_eq, ?_, hpos, fun i hi => ?_⟩, fun {i} hi => ?_⟩
  · exact hf.since_le.trans (by rw [hlen]; exact Nat.le_add_right _ _)
  · -- the delay line is again the end of what was fed
    have hlt : i < h.taps.size - 1 := hi
    have hmove := @copyRange_inside _ (f.load count input).buffer (f.load count input).buffer 0
      count (f.taps.size - 1) i (hf.taps_eq ▸ hlt)
    rw [Nat.zero_add] at hmove
    refine hmove.trans ?_
    rw [hf.window count input (by omega), hlen, Nat.add_assoc]
  · have hwritten := forLoop_update 0 count (fun i => (f.load count input).convolve dotProd i) out i
    rw [if_pos ⟨Nat.zero_le i, hi⟩] at hwritten
    refine hwritten.trans (congrArg dotProd ?_)
    rw [show (f.load count input).taps = h.taps from hf.taps_eq]
    refine List.map_congr_left fun j hj => ?_
    have hj := List.mem_range.mp hj
    rw [hf.window count input (by omega), ← Nat.add_assoc, Multirate.past_add (by omega)]

/-- Other taps: what both delay lines have in common is kept. -/
theorem Remembers.setTaps (hf : Remembers h f) {taps : Tap R} (hsize : 0 < taps.size) :
    Remembers (h.step dotProd (.setTaps taps)).1 (f.setTaps taps) := by
  have hle := hf.since_le
  have hpos := hf.size_pos
  rw [FIR.setTaps, hf.taps_eq]
  rcases Nat.lt_trichotomy taps.size h.taps.size with hless | hsame | hmore
  · rw [if_pos hless]
    refine ⟨rfl, ?_, hsize, fun i hi => ?_⟩
    · simpa only [History.step, if_neg (Nat.not_lt.mpr (Nat.le_of_lt hless))] using hle
    · have hlt : i < taps.size - 1 := hi
      -- the oldest samples are dropped
      have hmove := @copyRange_inside _ f.buffer f.buffer 0 (h.taps.size - taps.size)
        (taps.size - 1) i hlt
      rw [Nat.zero_add] at hmove
      refine hmove.trans ?_
      simp only [History.step, if_neg (Nat.not_lt.mpr (Nat.le_of_lt hless))]
      rw [hf.delay _ (by omega), Nat.add_comm (h.taps.size - taps.size) i, ← Nat.add_assoc,
        Multirate.past_add (by omega)]
      congr 1
      omega
  · rw [if_neg (by omega), if_neg (by omega)]
    refine ⟨rfl, ?_, hsize, fun i hi => ?_⟩
    · simpa only [History.step, if_neg (Nat.not_lt.mpr (Nat.le_of_eq hsame))] using hle
    · have hlt : i < taps.size - 1 := hi
      simp only [History.step, if_neg (Nat.not_lt.mpr (Nat.le_of_eq hsame))]
      rw [hf.delay i (by omega), hsame]
  · rw [if_neg (by omega), if_pos hmore]
    refine ⟨rfl, ?_, hsize, fun i hi => ?_⟩
    · simp only [History.step, if_pos hmore]
      omega
    · have hlt : i < taps.size - 1 := hi
      simp only [History.step, if_pos hmore]
      by_cases hnew : i < taps.size - h.taps.size
      · -- this far back the shorter filter had no delay line
        rw [past_known (by omega)]
        exact setRange_inside (Nat.zero_le i) (by omega)
      · obtain ⟨j, rfl⟩ := Nat.exists_eq_add_of_le (Nat.le_of_not_lt hnew)
        have hshift := past_known_lengthen h.since (PolyphaseResampler.signal h.samples)
          h.samples.length (h.taps.size - 1) (taps.size - h.taps.size) j
        have hsizes : h.taps.size - 1 + (taps.size - h.taps.size) = taps.size - 1 := by omega
        rw [hsizes] at hshift
        rw [setRange_above (by omega), copyRange_inside (by omega), Nat.zero_add,
          hf.delay j (by omega), hshift]

/-- One operation keeps what is remembered, and makes what the history says. -/
theorem Remembers.step (hf : Remembers h f) {op : Op T R}
    (hop : ∀ taps, op = .setTaps taps → 0 < taps.size) :
    Remembers (h.step dotProd op).1 (f.step dotProd op).1 ∧
      (f.step dotProd op).2 = (h.step dotProd op).2 := by
  cases op with
  | process count input out =>
    obtain ⟨hrest, hout⟩ := hf.process dotProd count input out
    exact ⟨hrest, List.map_congr_left fun i hi => hout (List.mem_range.mp hi)⟩
  | setTaps taps => exact ⟨hf.setTaps dotProd (hop taps rfl), rfl⟩
  | reset => exact ⟨hf.reset, rfl⟩

theorem Remembers.run (hf : Remembers h f) {ops : List (Op T R)}
    (hops : ∀ taps, Op.setTaps taps ∈ ops → 0 < taps.size) :
    Remembers (h.run dotProd ops).1 (f.run dotProd ops).1 ∧
      (f.run dotProd ops).2 = (h.run dotProd ops).2 := by
  induction ops generalizing h f with
  | nil => exact ⟨hf, rfl⟩
  | cons op ops ih =>
    have hop : ∀ taps, op = .setTaps taps → 0 < taps.size :=
      fun taps heq => hops taps (heq ▸ List.mem_cons_self)
    obtain ⟨hstep, hout⟩ := hf.step dotProd hop
    obtain ⟨hrest, hmade⟩ := ih hstep fun taps hmem => hops taps (List.mem_cons_of_mem _ hmem)
    refine ⟨hrest, ?_⟩
    rw [FIR.run, History.run]
    exact congrArg₂ (· ++ ·) hout hmade

/-- From as many samples on as there are taps, what was missing no longer counts. -/
theorem filtered_of_le {taps : Tap R} {since m : Nat} {l : List T}
    (hle : since + (taps.size - 1) ≤ m) :
    filtered dotProd taps since l m = filtered dotProd taps 0 l m := by
  rw [filtered, filtered]
  congr 1
  refine List.map_congr_left fun i hi => ?_
  have hi := List.mem_range.mp hi
  rw [past_known_of_le (by omega), past_known_of_le (by omega)]

end

/-- Two taps, then three, a reset, then one. -/
def sampleOps : List (Op Nat Nat) :=
  [.process 2 (fun i => i + 1) fun _ => 9, .setTaps ⟨fun i => i + 1, 3⟩,
    .process 3 (fun i => i + 3) fun _ => 9, .reset, .process 1 (fun _ => 5) fun _ => 9,
    .setTaps ⟨fun _ => 2, 1⟩, .process 1 (fun _ => 6) fun _ => 9]

section

variable [Zero T] (dotProd : List (T × R) → T) {taps : Tap R}

/-- `run` -/
def machine (taps : Tap R) : Machine T T where
  State := FIR T R
  Start f := ∃ raw, f = init taps raw
  process count _ w w' outcome :=
    let r := w.state.process dotProd count w.input w.output
    w' = ⟨r.1, w.input, r.2⟩ ∧ outcome = .done (some count)

/-- A sample needs only what went in before it. -/
theorem filtered_append {l : List T} (l' : List T) {m : Nat} (hm : m < l.length) :
    filtered dotProd taps 0 (l ++ l') m = filtered dotProd taps 0 l m := by
  refine congrArg dotProd (List.map_congr_left fun i _ => ?_)
  have hsame : ∀ j, j ≤ m → known 0 (PolyphaseResampler.signal (l ++ l')) j =
      known 0 (PolyphaseResampler.signal l) j := by
    intro j hj
    rw [known, known, PolyphaseResampler.signal_append_left (by omega)]
  rw [Multirate.past_congr hsame]

/-- The samples that went in, each filtered with all before it. -/
def filteredAll (taps : Tap R) (l : List T) : List T :=
  (List.range l.length).map (filtered dotProd taps 0 l)

theorem streaming (hsize : 0 < taps.size) :
    (machine dotProd taps).Streaming (fun l f => Remembers ⟨taps, l, 0⟩ f)
      (filteredAll dotProd taps) where
  start := by
    rintro _ ⟨raw, rfl⟩
    exact remembers_init hsize raw
  nothing := rfl
  call := by
    rintro l count next f buf output work outcome hf ⟨rfl, rfl⟩
    obtain ⟨hrest, hout⟩ := hf.process dotProd count buf output
    refine ⟨hrest, _, rfl, ?_⟩
    have hold : (List.range l.length).map (filtered dotProd taps 0 (l ++ block buf count)) =
        filteredAll dotProd taps l :=
      List.map_congr_left fun m hm => filtered_append dotProd _ (List.mem_range.mp hm)
    have hnew : block (f.process dotProd count buf output).2 count = (List.range count).map fun i =>
        filtered dotProd taps 0 (l ++ block buf count) (l.length + i) :=
      List.map_congr_left fun i hi => hout (List.mem_range.mp hi)
    simp only [Option.elim_some]
    rw [hnew, filteredAll, List.length_append, block_length, List.range_add, List.map_append, hold,
      List.map_map]
    rfl

/-- However the samples are cut into blocks, and whichever blocks are lost, what is made is all
    samples that were used up, each filtered with all before it. -/
theorem filters_blocks (hsize : 0 < taps.size) {taken sent : List (List T)} {lost : Nat} {config}
    (hrun : (machine dotProd taps).Run taken sent lost config) :
    ∃ used made, taken = used ++ config.holds ∧
      made.flatten = filteredAll dotProd taps used.flatten ∧ sent.Sublist made ∧
      made.length = sent.length + lost := by
  obtain ⟨used, made, hused, -, hmade, hrest⟩ := (streaming dotProd hsize).run hrun
  exact ⟨used, made, hused, hmade.symm, hrest⟩

end

/-- A sum of two samples, over three blocks. -/
theorem filters_blocks_sum : ∃ sent config,
    (machine PolyphaseResampler.dotProduct (⟨fun _ => 1, 2⟩ : Tap Nat)).Run [[1, 2], [], [3]] sent 0
        config ∧ sent.flatten = [1, 3, 5] := by
  have hsize : 0 < (⟨fun _ => 1, 2⟩ : Tap Nat).size := by decide
  have hstart : ∃ state, (machine PolyphaseResampler.dotProduct
      (⟨fun _ => 1, 2⟩ : Tap Nat)).Start state := ⟨_, fun _ => 0, rfl⟩
  obtain ⟨sent, config, hrun, hheld⟩ := Machine.exists_run hstart
    (fun count next state buf output => ⟨_, _, rfl, rfl⟩) [[1, 2], [], [3]]
  obtain ⟨used, made, hused, hmade, hsub, hlen⟩ :=
    filters_blocks PolyphaseResampler.dotProduct hsize hrun
  have hholds : config.holds = [] := by rw [Machine.Config.holds, hheld]
  rw [hholds, List.append_nil] at hused
  refine ⟨sent, config, hrun, ?_⟩
  rw [hsub.eq_of_length hlen.symm, hmade, ← hused]
  decide

end FIR

end RyFi.Dsp
