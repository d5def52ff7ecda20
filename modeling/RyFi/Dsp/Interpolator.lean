import RyFi.Dsp.Resampler

/-! # The interpolator of the transmitter

`rrc_interpolator.h`: a polyphase resampler for the ratio of two rates, with a pulse for taps.
The computation of the pulse, on doubles, is a parameter.
-/

namespace RyFi.Dsp

open CLoop BlockMachine

variable {T R : Type}

/-- What the interpolator does with a `double` that is a rate. -/
class RateType (D : Type) where
  round : D → Nat
  mul : D → Nat → D

structure RRCInterpolator (D T R : Type) where
  symbolrate : D
  samplerate : D
  rrcBeta : D
  rrcTapCount : Nat
  resamp : PolyphaseResampler T R

namespace RRCInterpolator

variable {D : Type} [RateType D]

section

variable (symbolrate samplerate : D)

/-- The ratio of the rates, reduced. -/
def interp : Nat :=
  RateType.round samplerate / Nat.gcd (RateType.round symbolrate) (RateType.round samplerate)

def decim : Nat :=
  RateType.round symbolrate / Nat.gcd (RateType.round symbolrate) (RateType.round samplerate)

variable (rootRaisedCosine : Nat → D → D → D → Tap R)

/-- The taps, at the rate of the upsampled symbols. -/
def rrcTaps (rrcBeta : D) (rrcTapCount : Nat) : Tap R :=
  let interp := interp symbolrate samplerate
  rootRaisedCosine (rrcTapCount * interp) rrcBeta symbolrate (RateType.mul symbolrate interp)

variable [Zero T] [Zero R]

/-- `genTaps` -/
def genTaps (r : RRCInterpolator D T R) : RRCInterpolator D T R :=
  { r with
    resamp := r.resamp.setRatio (interp r.symbolrate r.samplerate) (decim r.symbolrate r.samplerate)
      (rrcTaps r.symbolrate r.samplerate rootRaisedCosine r.rrcBeta r.rrcTapCount) }

/-- `init` -/
def init (rrcBeta : D) (rrcTapCount : Nat) (raw : Nat → T) : RRCInterpolator D T R :=
  genTaps rootRaisedCosine
    { symbolrate := symbolrate
      samplerate := samplerate
      rrcBeta := rrcBeta
      rrcTapCount := rrcTapCount
      resamp := .init 1 1 (rootRaisedCosine rrcTapCount rrcBeta symbolrate samplerate) raw }

/-- `run` -/
def machine (dotProd : List (T × R) → T) (rrcBeta : D) (rrcTapCount : Nat) : Machine T T where
  State := RRCInterpolator D T R
  Start r := ∃ raw, r = init symbolrate samplerate rootRaisedCosine rrcBeta rrcTapCount raw
  process count _ w w' outcome :=
    let r := w.state.resamp.process dotProd count w.input w.output
    w' = ⟨{ w.state with resamp := r.1 }, w.input, r.2.1⟩ ∧
      outcome = .done (if r.2.2 = 0 then none else some r.2.2)

end

section

variable {symbolrate samplerate rrcBeta : D} {rootRaisedCosine : Nat → D → D → D → Tap R}
  {rrcTapCount : Nat}

/-- What comes out of these symbols. -/
def interpolated [Zero T] [Zero R] (dotProd : List (T × R) → T) (symbolrate samplerate : D)
    (rootRaisedCosine : Nat → D → D → D → Tap R) (rrcBeta : D) (rrcTapCount : Nat) :
    List T → List T :=
  PolyphaseResampler.resampled dotProd (interp symbolrate samplerate) (decim symbolrate samplerate)
    (buildPolyphaseBank (interp symbolrate samplerate)
      (rrcTaps symbolrate samplerate rootRaisedCosine rrcBeta rrcTapCount))

theorem decim_pos (hsymbol : 0 < RateType.round symbolrate) : 0 < decim symbolrate samplerate :=
  Nat.div_pos (Nat.gcd_le_left _ hsymbol) (Nat.gcd_pos_of_pos_left _ hsymbol)

/-- As many samples as the rates say, rounded up. -/
def symbolSamples (symbolrate samplerate : D) (n : Nat) : Nat :=
  (n * RateType.round samplerate + RateType.round symbolrate - 1) / RateType.round symbolrate

theorem produced_eq (hsymbol : 0 < RateType.round symbolrate) (n : Nat) :
    PolyphaseResampler.produced (interp symbolrate samplerate) (decim symbolrate samplerate) n =
      symbolSamples symbolrate samplerate n := by
  have hgcd := Nat.gcd_pos_of_pos_left (RateType.round samplerate) hsymbol
  have hdecim : 0 < decim symbolrate samplerate := decim_pos hsymbol
  have hin := Nat.div_mul_cancel (Nat.gcd_dvd_left (RateType.round symbolrate)
    (RateType.round samplerate))
  have hout := Nat.div_mul_cancel (Nat.gcd_dvd_right (RateType.round symbolrate)
    (RateType.round samplerate))
  rw [← PolyphaseResampler.produced_mul hgcd hdecim, interp, decim, hin, hout,
    PolyphaseResampler.produced, symbolSamples]

/-- What the interpolator needs: rates that are not 0, and taps in the number asked for. -/
structure Proper (symbolrate samplerate : D) (rootRaisedCosine : Nat → D → D → D → Tap R)
    (rrcTapCount : Nat) : Prop where
  symbolrate_pos : 0 < RateType.round symbolrate
  samplerate_pos : 0 < RateType.round samplerate
  count_pos : 0 < rrcTapCount
  size_eq : ∀ count beta symbolrate samplerate,
    (rootRaisedCosine count beta symbolrate samplerate).size = count

theorem Proper.interp_pos (h : Proper symbolrate samplerate rootRaisedCosine rrcTapCount) :
    0 < interp symbolrate samplerate :=
  Nat.div_pos (Nat.gcd_le_right _ h.samplerate_pos) (Nat.gcd_pos_of_pos_right _ h.samplerate_pos)

theorem Proper.size_pos (h : Proper symbolrate samplerate rootRaisedCosine rrcTapCount) :
    0 < (rrcTaps symbolrate samplerate rootRaisedCosine rrcBeta rrcTapCount).size := by
  rw [rrcTaps, h.size_eq]
  exact Nat.mul_pos h.count_pos h.interp_pos

/-- Every phase has as many taps as there are symbols under the pulse. -/
theorem Proper.tapsPerPhase_eq [Zero R]
    (h : Proper symbolrate samplerate rootRaisedCosine rrcTapCount) :
    (buildPolyphaseBank (interp symbolrate samplerate)
      (rrcTaps symbolrate samplerate rootRaisedCosine rrcBeta rrcTapCount)).tapsPerPhase =
        rrcTapCount := by
  have hinterp := h.interp_pos
  simp only [buildPolyphaseBank, rrcTaps, h.size_eq]
  rw [Nat.add_sub_assoc hinterp, Nat.mul_comm, Nat.mul_add_div hinterp,
    Nat.div_eq_of_lt (by omega), Nat.add_zero]

/-- `interpolated` is what `run` makes of the symbols. -/
theorem Proper.streaming [Zero T] [Zero R] (dotProd : List (T × R) → T)
    (h : Proper symbolrate samplerate rootRaisedCosine rrcTapCount) :
    (machine symbolrate samplerate rootRaisedCosine dotProd rrcBeta rrcTapCount).Streaming
      (fun l r => PolyphaseResampler.Resampling (interp symbolrate samplerate)
        (decim symbolrate samplerate) (buildPolyphaseBank (interp symbolrate samplerate)
          (rrcTaps symbolrate samplerate rootRaisedCosine rrcBeta rrcTapCount))
        (PolyphaseResampler.signal l) l.length (PolyphaseResampler.produced
          (interp symbolrate samplerate) (decim symbolrate samplerate) l.length) r.resamp)
      (interpolated dotProd symbolrate samplerate rootRaisedCosine rrcBeta rrcTapCount) := by
  have hdecim : 0 < decim symbolrate samplerate := decim_pos h.symbolrate_pos
  have hsize : 0 < (rrcTaps symbolrate samplerate rootRaisedCosine rrcBeta rrcTapCount).size :=
    h.size_pos
  have hresamp := PolyphaseResampler.streaming dotProd h.interp_pos hdecim
    (PolyphaseResampler.tapsPerPhase_pos h.interp_pos hsize)
  refine ⟨?_, hresamp.nothing, ?_⟩
  · rintro _ ⟨raw, rfl⟩
    exact hresamp.start ⟨_, PolyphaseResampler.setRatio_eq _ _ _ _⟩
  · rintro l count next r buf output work outcome hr ⟨rfl, rfl⟩
    exact @Machine.Streaming.call _ _ _ _ _ hresamp _ _ next _ _ _ _ _ hr ⟨rfl, rfl⟩

theorem interpolated_initial [Zero T] [Zero R] {dotProd : List (T × R) → T}
    (h : Proper symbolrate samplerate rootRaisedCosine rrcTapCount) (l l' : List T) :
    interpolated dotProd symbolrate samplerate rootRaisedCosine rrcBeta rrcTapCount l <+:
      interpolated dotProd symbolrate samplerate rootRaisedCosine rrcBeta rrcTapCount (l ++ l') :=
  PolyphaseResampler.resampled_initial dotProd (decim_pos h.symbolrate_pos) l l'

theorem interpolated_length [Zero T] [Zero R] (dotProd : List (T × R) → T)
    (h : Proper symbolrate samplerate rootRaisedCosine rrcTapCount) (l : List T) :
    (interpolated dotProd symbolrate samplerate rootRaisedCosine rrcBeta rrcTapCount l).length =
      symbolSamples symbolrate samplerate l.length := by
  rw [interpolated, PolyphaseResampler.resampled, List.length_map, List.length_range,
    produced_eq h.symbolrate_pos]

section

variable [Semiring R] [AddCommMonoid T] [Module R T]

/-- The pulse, as the symbols meet it. -/
def pulse (symbolrate samplerate : D) (rootRaisedCosine : Nat → D → D → D → Tap R) (rrcBeta : D)
    (rrcTapCount i : Nat) : R :=
  (rrcTaps symbolrate samplerate rootRaisedCosine rrcBeta rrcTapCount).taps
    (rrcTapCount * interp symbolrate samplerate - 1 - i)

theorem interpolated_exact (h : Proper symbolrate samplerate rootRaisedCosine rrcTapCount)
    (l : List T) :
    interpolated PolyphaseResampler.dotProduct symbolrate samplerate rootRaisedCosine rrcBeta
        rrcTapCount l =
      (List.range (symbolSamples symbolrate samplerate l.length)).map
        (Multirate.decimate (decim symbolrate samplerate)
          (Multirate.filter (pulse symbolrate samplerate rootRaisedCosine rrcBeta rrcTapCount)
            (rrcTapCount * interp symbolrate samplerate)
            (Multirate.upsample (interp symbolrate samplerate) (PolyphaseResampler.signal l)))) := by
  rw [interpolated, PolyphaseResampler.resampled, produced_eq h.symbolrate_pos]
  refine List.map_congr_left fun k _ => ?_
  rw [PolyphaseResampler.sample_exact h.interp_pos, h.tapsPerPhase_eq, Multirate.decimate,
    Multirate.decimate]
  refine Multirate.filter_congr (fun i hi => ?_) _ _
  rw [PolyphaseResampler.response, h.tapsPerPhase_eq, pulse, Tap.padded, rrcTaps, h.size_eq,
    Nat.mul_comm _ rrcTapCount, if_pos (by omega)]

end

end

/-! ## Rates in whole Hz -/

instance : RateType Nat where
  round rate := rate
  mul rate n := rate * n

/-- A pulse of squares. -/
def samplePulse (count _beta _symbolrate _samplerate : Nat) : Tap Nat :=
  ⟨fun i => (i + 1) * (i + 1), count⟩

theorem proper_samplePulse : Proper 4 6 samplePulse 2 where
  symbolrate_pos := by decide
  samplerate_pos := by decide
  count_pos := by decide
  size_eq _ _ _ _ := rfl

theorem exists_run_machine [Zero T] [Zero R] (dotProd : List (T × R) → T)
    (symbolrate samplerate : D) (rootRaisedCosine : Nat → D → D → D → Tap R) (rrcBeta : D)
    (rrcTapCount : Nat) (blocks : List (List T)) :
    ∃ sent config, (machine symbolrate samplerate rootRaisedCosine dotProd rrcBeta rrcTapCount).Run
      blocks sent 0 config ∧ config.held = none := by
  have hnonempty : Nonempty T := ⟨0⟩
  have hstart : ∃ state, (machine symbolrate samplerate rootRaisedCosine dotProd rrcBeta
      rrcTapCount).Start state := ⟨_, fun _ => 0, rfl⟩
  exact Machine.exists_run hstart (fun count next state buf output => ⟨_, _, rfl, rfl⟩) blocks

end RRCInterpolator

end RyFi.Dsp
