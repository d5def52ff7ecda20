import RyFi.Lib.Loop
import RyFi.Lib.Multirate
import RyFi.Dsp.Pipeline
import Mathlib.Tactic.Ring

/-! # The polyphase resampler

`polyphase_bank.h` and `polyphase_resampler.h`.  The dot product of a window of samples with
the taps of a phase is a parameter: on floats its value depends on the order of the additions.
With any dot product the samples that come out depend on those that went in and not on how
they were cut into blocks (`Resampling`, `streaming`); with the exact one they are those of the
signal upsampled, filtered with all the taps and decimated (`sample_exact`).
-/

namespace RyFi.Dsp

open CLoop BlockMachine

variable {T R : Type}

/-! ## The bank -/

/-- `tap`: the taps of a filter. -/
structure Tap (R : Type) where
  taps : Nat → R
  size : Nat

structure PolyphaseBank (R : Type) where
  phaseCount : Nat
  tapsPerPhase : Nat
  phases : Nat → Nat → R

/-- The taps, and zeros behind them. -/
def Tap.padded [Zero R] (taps : Tap R) (i : Nat) : R := if i < taps.size then taps.taps i else 0

/-- The loop of `buildPolyphaseBank` that fills the phases. -/
def fillPhases [Zero R] (phaseCount totTapCount : Nat) (taps : Tap R) : Nat → Nat → R :=
  forLoop 0 totTapCount (fun i phases =>
    let phase := phaseCount - 1 - i % phaseCount
    Function.update phases phase
      (Function.update (phases phase) (i / phaseCount) (taps.padded i))) fun _ _ => 0

/-- `buildPolyphaseBank`. -/
def buildPolyphaseBank [Zero R] (phaseCount : Nat) (taps : Tap R) : PolyphaseBank R :=
  let tapsPerPhase := (taps.size + phaseCount - 1) / phaseCount
  { phaseCount := phaseCount
    tapsPerPhase := tapsPerPhase
    phases := fillPhases phaseCount (phaseCount * tapsPerPhase) taps }

/-- Every phase has every `phaseCount`-th tap, the last phase the first ones. -/
theorem fillPhases_apply [Zero R] {phaseCount n : Nat} (taps : Tap R) {phase j : Nat}
    (hphase : phase < phaseCount) (hj : j < n) :
    fillPhases phaseCount (n * phaseCount) taps phase j =
      taps.padded (j * phaseCount + (phaseCount - 1 - phase)) := by
  have hfill : ∀ i, i < n * phaseCount →
      fillPhases phaseCount (n * phaseCount) taps (phaseCount - 1 - i % phaseCount)
        (i / phaseCount) = taps.padded i := by
    refine forLoop_induct (fun k (phases : Nat → Nat → R) => ∀ i, i < k →
      phases (phaseCount - 1 - i % phaseCount) (i / phaseCount) = taps.padded i)
      (Nat.zero_le _) (fun i hi => absurd hi (Nat.not_lt_zero i)) ?_
    intro k phases _ _ ih i hi
    have hmod := Nat.mod_lt i (Nat.zero_lt_of_lt hphase)
    have hmod' := Nat.mod_lt k (Nat.zero_lt_of_lt hphase)
    simp only [Function.update_apply]
    by_cases hlast : i = k
    · rw [hlast, if_pos rfl, Function.update_self]
    · split
      next hsame =>
        -- two taps of one phase have different places
        have hne : i / phaseCount ≠ k / phaseCount := fun hdiv => hlast <| by
          rw [← Nat.div_add_mod i phaseCount, ← Nat.div_add_mod k phaseCount, hdiv,
            show i % phaseCount = k % phaseCount by omega]
        rw [Function.update_of_ne hne, ← hsame]
        exact ih i (by omega)
      next => exact ih i (by omega)
  have hplace := hfill (j * phaseCount + (phaseCount - 1 - phase)) (by
    have hmul : (j + 1) * phaseCount ≤ n * phaseCount := Nat.mul_le_mul_right _ hj
    rw [Nat.add_mul, Nat.one_mul] at hmul
    omega)
  have hrest : phaseCount - 1 - phase < phaseCount := by omega
  rw [Nat.mul_add_mod_self_right, Nat.mod_eq_of_lt hrest, Nat.mul_comm j, Nat.mul_add_div (by omega),
    Nat.div_eq_of_lt hrest, Nat.add_zero, show phaseCount - 1 - (phaseCount - 1 - phase) = phase by
      omega] at hplace
  rw [hplace, Nat.mul_comm j]

/-! ## The resampler -/

structure PolyphaseResampler (T R : Type) where
  interp : Nat
  decim : Nat
  phases : PolyphaseBank R
  phase : Nat
  offset : Nat
  /-- The delay line, with the block that is processed behind it. -/
  buffer : Nat → T

namespace PolyphaseResampler

section

variable [Zero T] [Zero R]

/-- `init`; the delay line is cleared, what is behind it is uninitialized. -/
def init (interp decim : Nat) (taps : Tap R) (raw : Nat → T) : PolyphaseResampler T R :=
  let phases := buildPolyphaseBank interp taps
  { interp := interp
    decim := decim
    phases := phases
    phase := 0
    offset := 0
    buffer := setRange raw 0 0 (phases.tapsPerPhase - 1) }

/-- `reset`. -/
def reset (r : PolyphaseResampler T R) : PolyphaseResampler T R :=
  { r with
    buffer := setRange r.buffer 0 0 (r.phases.tapsPerPhase - 1)
    phase := 0
    offset := 0 }

/-- `setRatio`. -/
def setRatio (r : PolyphaseResampler T R) (interp decim : Nat) (taps : Tap R) :
    PolyphaseResampler T R :=
  reset { r with
    interp := interp
    decim := decim
    phases := buildPolyphaseBank interp taps }

/-- The new ratio is that of a new resampler. -/
theorem setRatio_eq (r : PolyphaseResampler T R) (interp decim : Nat) (taps : Tap R) :
    r.setRatio interp decim taps = init interp decim taps r.buffer := rfl

end

/-- The variables of the loop of `process`. -/
structure Progress (T : Type) where
  phase : Nat
  offset : Nat
  outCount : Nat
  out : Nat → T

section

variable (dotProd : List (T × R) → T)

/-- `volk_32fc_32f_dot_prod_32fc` of the window at `offset` with the taps of a phase. -/
def convolve (r : PolyphaseResampler T R) (phase offset : Nat) : T :=
  dotProd ((List.range r.phases.tapsPerPhase).map fun i =>
    (r.buffer (offset + i), r.phases.phases phase i))

/-- The offset grows, or it stays and the phase does. -/
def remaining (r : PolyphaseResampler T R) (count : Nat) (s : Progress T) : Nat :=
  (count - s.offset) * (r.interp + 1) + (r.interp - s.phase)

/-- One iteration of the loop. -/
def step (r : PolyphaseResampler T R) (s : Progress T) : Progress T :=
  let phase := s.phase + r.decim
  { out := Function.update s.out s.outCount (r.convolve dotProd s.phase s.offset)
    outCount := s.outCount + 1
    offset := s.offset + phase / r.interp
    phase := phase % r.interp }

/-- The loop. -/
def resample (r : PolyphaseResampler T R) (count : Nat) : Progress T → Progress T :=
  whileVariant (fun s => decide (s.offset < count)) (r.step dotProd) (r.remaining count)

/-- The `memcpy` of a block to `bufStart`. -/
def load (r : PolyphaseResampler T R) (count : Nat) (input : Nat → T) : PolyphaseResampler T R :=
  { r with buffer := copyRange r.buffer (r.phases.tapsPerPhase - 1) input 0 count }

/-- `process`: the resampler afterwards, what is written and how many samples. -/
def process (r : PolyphaseResampler T R) (count : Nat) (input out : Nat → T) :
    PolyphaseResampler T R × (Nat → T) × Nat :=
  let r := r.load count input
  let s := r.resample dotProd count ⟨r.phase, r.offset, 0, out⟩
  ({ r with
      phase := s.phase
      offset := s.offset - count
      buffer := copyRange r.buffer 0 r.buffer count (r.phases.tapsPerPhase - 1) },
    s.out, s.outCount)

end

variable {dotProd : List (T × R) → T} {r : PolyphaseResampler T R} {interp decim : Nat}

theorem resample_decreases (hinterp : 0 < r.interp) (hdecim : 0 < r.decim) (count : Nat)
    (s : Progress T) (hs : decide (s.offset < count) = true) :
    r.remaining count (r.step dotProd s) < r.remaining count s := by
  have hlt := of_decide_eq_true hs
  have hmod := Nat.mod_lt (s.phase + r.decim) hinterp
  have hsplit := Nat.div_add_mod (s.phase + r.decim) r.interp
  simp only [remaining, step]
  generalize (s.phase + r.decim) / r.interp = q at hsplit ⊢
  by_cases hwrap : q = 0
  · rw [hwrap, Nat.mul_zero] at hsplit
    rw [hwrap, Nat.add_zero]
    omega
  · obtain ⟨k, hk⟩ := Nat.exists_eq_add_of_le
      (show count - (s.offset + q) + 1 ≤ count - s.offset by omega)
    rw [hk, Nat.add_mul, Nat.add_mul, Nat.one_mul]
    omega

/-! ## Any dot product -/

/-- Sample `k` that comes out of `x`. -/
def sample [Zero T] (dotProd : List (T × R) → T) (interp decim : Nat) (bank : PolyphaseBank R)
    (x : Nat → T) (k : Nat) : T :=
  dotProd ((List.range bank.tapsPerPhase).map fun i =>
    (Multirate.past x (k * decim / interp) (bank.tapsPerPhase - 1 - i),
      bank.phases (k * decim % interp) i))

/-- How many samples come out of `n`. -/
def produced (interp decim n : Nat) : Nat := (n * interp + decim - 1) / decim

/-- Only the ratio matters. -/
theorem produced_mul {g n : Nat} (hg : 0 < g) (hdecim : 0 < decim) :
    produced (interp * g) (decim * g) n = produced interp decim n := by
  have hle := Nat.div_mul_le_self (n * interp + decim - 1) decim
  rw [produced, produced]
  generalize hq : (n * interp + decim - 1) / decim = q at hle ⊢
  have hlt : n * interp + decim ≤ (q + 1) * decim := by
    have hrest := Nat.lt_mul_div_succ (n * interp + decim - 1) hdecim
    rw [hq, Nat.mul_comm decim] at hrest
    omega
  have hleg : (q * decim + 1) * g ≤ (n * interp + decim) * g := Nat.mul_le_mul_right g (by omega)
  have hltg : (n * interp + decim) * g ≤ (q + 1) * decim * g := Nat.mul_le_mul_right g hlt
  have hsum : n * (interp * g) + decim * g = (n * interp + decim) * g := by ring
  rw [hsum]
  refine Nat.div_eq_of_lt_le ?_ ?_
  · rw [← Nat.mul_assoc]
    rw [Nat.succ_mul] at hleg
    omega
  · rw [← Nat.mul_assoc]
    have hpos : 0 < (n * interp + decim) * g := Nat.mul_pos (by omega) hg
    omega

/-- The resampler has made `k` samples of the first `n` of `x`. -/
structure Resampling [Zero T] (interp decim : Nat) (bank : PolyphaseBank R) (x : Nat → T)
    (n k : Nat) (r : PolyphaseResampler T R) : Prop where
  interp_eq : r.interp = interp
  decim_eq : r.decim = decim
  phases_eq : r.phases = bank
  phase_lt : r.phase < interp
  position : (n + r.offset) * interp + r.phase = k * decim
  made : ∀ j, j < k → j * decim < n * interp
  delay : ∀ i, i < bank.tapsPerPhase - 1 →
    r.buffer i = Multirate.past x (n + i) (bank.tapsPerPhase - 1)

/-- As many as there are before the end. -/
theorem Resampling.count [Zero T] {bank : PolyphaseBank R} {x : Nat → T} {n k : Nat}
    (h : Resampling interp decim bank x n k r) (hdecim : 0 < decim) :
    k = produced interp decim n := by
  have hposition := h.position
  have hle : n * interp ≤ k * decim := by
    rw [← hposition, Nat.add_mul]
    omega
  refine (Nat.div_eq_of_lt_le ?_ ?_).symm
  · cases k with
    | zero => omega
    | succ k =>
      have hlast := h.made k (Nat.lt_succ_self k)
      rw [Nat.succ_mul]
      omega
  · rw [Nat.succ_mul]
    omega

theorem resampling_init [Zero T] [Zero R] (hinterp : 0 < interp) (taps : Tap R) (raw x : Nat → T) :
    Resampling interp decim (buildPolyphaseBank interp taps) x 0 0 (init interp decim taps raw) where
  interp_eq := rfl
  decim_eq := rfl
  phases_eq := rfl
  phase_lt := hinterp
  position := by simp [init]
  made j hj := absurd hj (Nat.not_lt_zero j)
  delay i hi := by
    rw [Multirate.past, if_neg (by omega)]
    exact setRange_inside (Nat.zero_le i) (by omega)

/-- The delay line and the block behind it. -/
theorem Resampling.window [Zero T] {bank : PolyphaseBank R} {x : Nat → T} {n k count : Nat}
    (h : Resampling interp decim bank x n k r) {input : Nat → T}
    (hinput : ∀ j, j < count → input j = x (n + j)) {i : Nat}
    (hi : i < bank.tapsPerPhase - 1 + count) :
    copyRange r.buffer (bank.tapsPerPhase - 1) input 0 count i =
      Multirate.past x (n + i) (bank.tapsPerPhase - 1) := by
  by_cases hdelay : i < bank.tapsPerPhase - 1
  · rw [copyRange_below hdelay]
    exact h.delay i hdelay
  · obtain ⟨j, rfl⟩ := Nat.exists_eq_add_of_le (Nat.le_of_not_lt hdelay)
    rw [copyRange_inside (by omega), Nat.zero_add, hinput j (by omega), Multirate.past,
      if_pos (by omega)]
    congr 1
    omega

/-- What holds before every iteration: of the block `count` samples long, after `n` samples. -/
structure Resampling.Loop [Zero T] (dotProd : List (T × R) → T) (interp decim : Nat)
    (bank : PolyphaseBank R) (x : Nat → T) (n k count : Nat) (s : Progress T) : Prop where
  phase_lt : s.phase < interp
  position : (n + s.offset) * interp + s.phase = (k + s.outCount) * decim
  made : ∀ j, j < k + s.outCount → j * decim < (n + count) * interp
  written : ∀ i, i < s.outCount → s.out i = sample dotProd interp decim bank x (k + i)

/-- What the loop convolves is the sample whose turn it is. -/
theorem convolve_eq_sample [Zero T] {bank : PolyphaseBank R} {x : Nat → T} {n k count : Nat}
    {s : Progress T} (hphases : r.phases = bank) (htaps : 0 < bank.tapsPerPhase)
    (hwindow : ∀ i, i < bank.tapsPerPhase - 1 + count →
      r.buffer i = Multirate.past x (n + i) (bank.tapsPerPhase - 1))
    (h : Resampling.Loop dotProd interp decim bank x n k count s) (hoffset : s.offset < count) :
    r.convolve dotProd s.phase s.offset =
      sample dotProd interp decim bank x (k + s.outCount) := by
  have hinterp : 0 < interp := Nat.zero_lt_of_lt h.phase_lt
  have hdiv : (k + s.outCount) * decim / interp = n + s.offset := by
    rw [← h.position, Nat.mul_comm, Nat.mul_add_div hinterp, Nat.div_eq_of_lt h.phase_lt,
      Nat.add_zero]
  have hmod : (k + s.outCount) * decim % interp = s.phase := by
    rw [← h.position, Nat.mul_add_mod_self_right, Nat.mod_eq_of_lt h.phase_lt]
  rw [convolve, sample, hdiv, hmod, hphases]
  refine congrArg dotProd (List.map_congr_left fun i hi => ?_)
  have hi := List.mem_range.mp hi
  rw [hwindow _ (by omega), ← Nat.add_assoc, Multirate.past_add (by omega)]

theorem Resampling.Loop.step [Zero T] {bank : PolyphaseBank R} {x : Nat → T} {n k count : Nat}
    {s : Progress T} (hinterp : r.interp = interp) (hdecim : r.decim = decim)
    (hphases : r.phases = bank) (htaps : 0 < bank.tapsPerPhase)
    (hwindow : ∀ i, i < bank.tapsPerPhase - 1 + count →
      r.buffer i = Multirate.past x (n + i) (bank.tapsPerPhase - 1))
    (h : Resampling.Loop dotProd interp decim bank x n k count s) (hoffset : s.offset < count) :
    Resampling.Loop dotProd interp decim bank x n k count (r.step dotProd s) := by
  have hpos : 0 < interp := Nat.zero_lt_of_lt h.phase_lt
  have hsplit := Nat.div_add_mod (s.phase + decim) interp
  have hposition := h.position
  refine ⟨?_, ?_, ?_, ?_⟩
  · simp only [PolyphaseResampler.step, hinterp]
    exact Nat.mod_lt _ hpos
  · simp only [PolyphaseResampler.step, hinterp, hdecim]
    rw [← Nat.add_assoc, ← Nat.add_assoc, Nat.add_mul (n + s.offset), Nat.succ_mul, ← hposition,
      Nat.mul_comm (_ / _)]
    omega
  · intro j hj
    rcases Nat.lt_succ_iff_lt_or_eq.mp (show j < k + s.outCount + 1 from hj) with hlt | rfl
    · exact h.made j hlt
    · -- the sample just made lies before the end of the block
      have hmul : (n + s.offset + 1) * interp ≤ (n + count) * interp :=
        Nat.mul_le_mul_right _ (by omega)
      have hphase := h.phase_lt
      rw [Nat.succ_mul] at hmul
      omega
  · intro i hi
    rcases Nat.lt_succ_iff_lt_or_eq.mp (show i < s.outCount + 1 from hi) with hlt | rfl
    · simp only [PolyphaseResampler.step]
      rw [Function.update_of_ne (Nat.ne_of_lt hlt)]
      exact h.written i hlt
    · simp only [PolyphaseResampler.step]
      rw [Function.update_self]
      exact convolve_eq_sample hphases htaps hwindow h hoffset

theorem Resampling.Loop.resample [Zero T] {bank : PolyphaseBank R} {x : Nat → T}
    {n k count : Nat} {s : Progress T} (hinterp : r.interp = interp) (hdecim : r.decim = decim)
    (hpos : 0 < decim) (hphases : r.phases = bank) (htaps : 0 < bank.tapsPerPhase)
    (hwindow : ∀ i, i < bank.tapsPerPhase - 1 + count →
      r.buffer i = Multirate.past x (n + i) (bank.tapsPerPhase - 1))
    (h : Resampling.Loop dotProd interp decim bank x n k count s) :
    Resampling.Loop dotProd interp decim bank x n k count (r.resample dotProd count s) ∧
      count ≤ (r.resample dotProd count s).offset := by
  have hdecreases : ∀ s, decide (s.offset < count) = true →
      r.remaining count (r.step dotProd s) < r.remaining count s :=
    resample_decreases (hinterp ▸ Nat.zero_lt_of_lt h.phase_lt) (hdecim ▸ hpos) count
  obtain ⟨hloop, hexit⟩ := whileVariant_induct hdecreases
    (Resampling.Loop dotProd interp decim bank x n k count) h fun s hs hoffset =>
      hs.step hinterp hdecim hphases htaps hwindow (of_decide_eq_true hoffset)
  exact ⟨hloop, Nat.le_of_not_lt (of_decide_eq_false hexit)⟩

/-- One block: the samples that are due are written, one behind the other. -/
theorem Resampling.process [Zero T] (dotProd : List (T × R) → T) {bank : PolyphaseBank R}
    {x : Nat → T} {n k count : Nat} (hdecim : 0 < decim) (htaps : 0 < bank.tapsPerPhase)
    (h : Resampling interp decim bank x n k r) {input : Nat → T}
    (hinput : ∀ j, j < count → input j = x (n + j)) (out : Nat → T) :
    Resampling interp decim bank x (n + count) (k + (r.process dotProd count input out).2.2)
        (r.process dotProd count input out).1 ∧
      ∀ i, i < (r.process dotProd count input out).2.2 →
        (r.process dotProd count input out).2.1 i =
          sample dotProd interp decim bank x (k + i) := by
  have hwindow : ∀ i, i < bank.tapsPerPhase - 1 + count →
      (r.load count input).buffer i = Multirate.past x (n + i) (bank.tapsPerPhase - 1) := by
    intro i hi
    rw [load, h.phases_eq]
    exact h.window hinput hi
  have hstart : Resampling.Loop dotProd interp decim bank x n k count
      ⟨r.phase, r.offset, 0, out⟩ := by
    refine ⟨h.phase_lt, h.position, fun j hj => ?_, fun i hi => absurd hi (Nat.not_lt_zero i)⟩
    exact Nat.lt_of_lt_of_le (h.made j hj) (Nat.mul_le_mul_right _ (Nat.le_add_right n count))
  have hload : (r.load count input).phases = bank := h.phases_eq
  obtain ⟨hloop, hend⟩ := hstart.resample (r := r.load count input) h.interp_eq h.decim_eq hdecim hload htaps hwindow
  refine ⟨⟨h.interp_eq, h.decim_eq, h.phases_eq, hloop.phase_lt, ?_, hloop.made, ?_⟩,
    hloop.written⟩
  · have hrest := congrArg (n + ·) (Nat.add_sub_of_le hend)
    have hoffset := (Nat.add_assoc n count _).trans hrest
    exact hoffset ▸ hloop.position
  · intro i hi
    have hmove := @copyRange_inside _ (r.load count input).buffer (r.load count input).buffer 0
      count (bank.tapsPerPhase - 1) i hi
    rw [Nat.zero_add, ← h.phases_eq] at hmove
    refine hmove.trans ?_
    rw [hwindow _ (by omega), Nat.add_assoc]

/-! ## Blocks -/

/-- The signal that begins with these samples. -/
def signal [Zero T] (l : List T) (j : Nat) : T := l.getD j 0

/-- What comes out of these samples. -/
def resampled [Zero T] (dotProd : List (T × R) → T) (interp decim : Nat) (bank : PolyphaseBank R)
    (l : List T) : List T :=
  (List.range (produced interp decim l.length)).map (sample dotProd interp decim bank (signal l))

theorem signal_append_left [Zero T] {l l' : List T} {j : Nat} (hj : j < l.length) :
    signal (l ++ l') j = signal l j :=
  List.getD_append l l' 0 j hj

theorem signal_append_right [Zero T] (l : List T) (buf : Nat → T) {count j : Nat} (hj : j < count) :
    signal (l ++ block buf count) (l.length + j) = buf j := by
  rw [signal, List.getD_append_right l _ 0 _ (Nat.le_add_right _ _), Nat.add_sub_cancel_left,
    List.getD_eq_getElem?_getD, block_getElem? buf hj, Option.getD_some]

/-- A sample needs only what went in before it. -/
theorem sample_congr [Zero T] {bank : PolyphaseBank R} {x x' : Nat → T} {n k : Nat}
    (hx : ∀ j, j < n → x j = x' j) (hk : k * decim < n * interp) :
    sample dotProd interp decim bank x k = sample dotProd interp decim bank x' k := by
  have hlt : k * decim / interp < n := Nat.div_lt_of_lt_mul (Nat.mul_comm n interp ▸ hk)
  refine congrArg dotProd (List.map_congr_left fun i _ => ?_)
  rw [Multirate.past_congr fun j hj => hx j (Nat.lt_of_le_of_lt hj hlt)]

/-- The samples that came out stay when more goes in. -/
theorem resampled_initial [Zero T] (dotProd : List (T × R) → T) {bank : PolyphaseBank R}
    (hdecim : 0 < decim) (l l' : List T) :
    resampled dotProd interp decim bank l <+: resampled dotProd interp decim bank (l ++ l') := by
  have hmono : produced interp decim l.length ≤ produced interp decim (l ++ l').length := by
    rw [List.length_append]
    refine Nat.div_le_div_right (Nat.sub_le_sub_right (Nat.add_le_add_right ?_ _) 1)
    exact Nat.mul_le_mul_right interp (Nat.le_add_right _ _)
  obtain ⟨more, hmore⟩ := Nat.exists_eq_add_of_le hmono
  rw [resampled, resampled, hmore, List.range_add, List.map_append]
  have hsame : (List.range (produced interp decim l.length)).map
      (sample dotProd interp decim bank (signal l)) =
        (List.range (produced interp decim l.length)).map
          (sample dotProd interp decim bank (signal (l ++ l'))) := by
    refine List.map_congr_left fun k hk => ?_
    refine sample_congr (fun j hj => (signal_append_left hj).symm) ?_
    have hle := (Nat.le_div_iff_mul_le hdecim).mp (List.mem_range.mp hk)
    rw [Nat.succ_mul] at hle
    omega
  rw [hsame]
  exact List.prefix_append _ _

theorem Resampling.congr [Zero T] {bank : PolyphaseBank R} {x x' : Nat → T} {n k : Nat}
    (h : Resampling interp decim bank x n k r) (hx : ∀ j, j < n → x j = x' j) :
    Resampling interp decim bank x' n k r := by
  refine { h with delay := fun i hi => ?_ }
  rw [h.delay i hi, Multirate.past, Multirate.past]
  split
  · exact hx _ (by omega)
  · rfl

/-- A block is only handed over if there is something in it. -/
theorem elim_block (out : Nat → T) (outCount : Nat) :
    (if outCount = 0 then none else some outCount).elim [] (block out) = block out outCount := by
  split
  next hzero =>
    rw [hzero]
    rfl
  next => rfl

section

variable [Zero T] [Zero R]

/-- `run`. -/
def machine (dotProd : List (T × R) → T) (interp decim : Nat) (taps : Tap R) : Machine T T where
  State := PolyphaseResampler T R
  Start r := ∃ raw, r = init interp decim taps raw
  process count _ w w' outcome :=
    let r := w.state.process dotProd count w.input w.output
    w' = ⟨r.1, w.input, r.2.1⟩ ∧ outcome = .done (if r.2.2 = 0 then none else some r.2.2)

/-- `resampled` is what `run` makes of its input. -/
theorem streaming (dotProd : List (T × R) → T) {taps : Tap R} (hinterp : 0 < interp)
    (hdecim : 0 < decim) (htaps : 0 < (buildPolyphaseBank interp taps).tapsPerPhase) :
    (machine dotProd interp decim taps).Streaming
      (fun l r => Resampling interp decim (buildPolyphaseBank interp taps) (signal l) l.length
        (produced interp decim l.length) r)
      (resampled dotProd interp decim (buildPolyphaseBank interp taps)) where
  start := by
    rintro _ ⟨raw, rfl⟩
    have hinit : Resampling interp decim (buildPolyphaseBank interp taps) (signal []) 0 0
        (init interp decim taps raw) := resampling_init hinterp taps raw (signal [])
    exact hinit.count hdecim ▸ hinit
  nothing := by
    rw [resampled, List.length_nil, produced, Nat.zero_mul, Nat.zero_add,
      Nat.div_eq_of_lt (Nat.sub_lt hdecim Nat.zero_lt_one)]
    rfl
  call := by
    rintro l count next r buf output work outcome hr ⟨rfl, rfl⟩
    have hsame : ∀ j, j < l.length → signal l j = signal (l ++ block buf count) j :=
      fun j hj => (signal_append_left hj).symm
    have hstart := hr.congr hsame
    have hinput : ∀ j, j < count → buf j = signal (l ++ block buf count) (l.length + j) :=
      fun j hj => (signal_append_right l buf hj).symm
    obtain ⟨hprocess, hwritten⟩ := hstart.process dotProd hdecim htaps hinput output
    have hlen : (l ++ block buf count).length = l.length + count := by
      rw [List.length_append, block_length]
    have hcount := hprocess.count hdecim
    rw [← hlen] at hprocess hcount
    refine ⟨hcount ▸ hprocess, _, rfl, ?_⟩
    simp only
    generalize r.process dotProd count buf output = result at hcount hwritten ⊢
    have hgain : block result.2.1 result.2.2 =
        (List.range result.2.2).map fun i => sample dotProd interp decim _
          (signal (l ++ block buf count)) (produced interp decim l.length + i) :=
      List.map_congr_left fun i hi => hwritten i (List.mem_range.mp hi)
    rw [elim_block, hgain, resampled, ← hcount, List.range_add, List.map_append, List.map_map,
      resampled]
    refine congrArg (· ++ _) (List.map_congr_left fun k hk => ?_)
    exact sample_congr (fun j hj => signal_append_left hj) (hr.made k (List.mem_range.mp hk))

end

/-! ## The exact dot product -/

section

variable [Semiring R] [AddCommMonoid T] [Module R T]

def dotProduct (l : List (T × R)) : T := (l.map fun p => p.2 • p.1).sum

omit [Semiring R] [Module R T] in
theorem sum_range_map (f : Nat → T) (n : Nat) :
    ((List.range n).map f).sum = ∑ i ∈ Finset.range n, f i := by
  induction n with
  | zero => rfl
  | succ n ih => rw [List.range_succ, List.map_append, List.sum_append, ih, Finset.sum_range_succ,
      List.map_singleton, List.sum_singleton]

/-- The taps as the samples meet them: the last one weighs the newest sample. -/
def response (phaseCount : Nat) (taps : Tap R) (i : Nat) : R :=
  taps.padded (phaseCount * (buildPolyphaseBank phaseCount taps).tapsPerPhase - 1 - i)

/-- The samples are those of the signal upsampled, filtered with all taps and decimated. -/
theorem sample_exact (hinterp : 0 < interp) (taps : Tap R) (x : Nat → T) (k : Nat) :
    sample dotProduct interp decim (buildPolyphaseBank interp taps) x k =
      Multirate.decimate decim
        (Multirate.filter (response interp taps)
          ((buildPolyphaseBank interp taps).tapsPerPhase * interp) (Multirate.upsample interp x)) k := by
  have hphase := Nat.mod_lt (k * decim) hinterp
  have hsplit : k * decim = k * decim / interp * interp + k * decim % interp := by
    rw [Nat.mul_comm (_ / _), Nat.div_add_mod]
  rw [Multirate.decimate, hsplit, Multirate.polyphase hphase, ← Finset.sum_range_reflect, sample,
    dotProduct, List.map_map, sum_range_map]
  refine Finset.sum_congr rfl fun i hi => ?_
  have hi := Finset.mem_range.mp hi
  have hplace : response interp taps
      (((buildPolyphaseBank interp taps).tapsPerPhase - 1 - i) * interp + k * decim % interp) =
        (buildPolyphaseBank interp taps).phases (k * decim % interp) i := by
    rw [response]
    simp only [buildPolyphaseBank] at hi ⊢
    rw [Nat.mul_comm interp, fillPhases_apply taps hphase hi]
    congr 1
    obtain ⟨j, hj⟩ := Nat.exists_eq_add_of_lt hi
    rw [hj, show i + j + 1 - 1 - i = j by omega, Nat.add_mul, Nat.add_mul, Nat.one_mul]
    omega
  rw [hplace]
  rfl

end

section

variable [Zero T] [Zero R]

theorem tapsPerPhase_pos {taps : Tap R} (hinterp : 0 < interp) (hsize : 0 < taps.size) :
    0 < (buildPolyphaseBank interp taps).tapsPerPhase :=
  Nat.div_pos (by omega) hinterp

end

/-- The first four squares. -/
def sampleTaps : Tap Nat := ⟨fun i => (i + 1) * (i + 1), 4⟩

end PolyphaseResampler

end RyFi.Dsp
