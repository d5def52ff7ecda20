import RyFi.Dsp.Interpolator
import RyFi.Modem.Threads

/-! # The samples that are sent

`Transmitter::init` puts the interpolator behind the framer.  In any interleaving of the four
threads the samples that come out are those that the symbols of the frames give when they are
interpolated in one piece: nothing shows where a frame, or a block, ends.
-/

namespace RyFi.Modem

open BlockMachine ProcessChain RyFi.Conv RyFi.Rs RyFi.Dsp

instance {F : Type} [SampleType F] : Zero (ComplexT F) := ⟨⟨0, 0⟩⟩

theorem Transmits.length_eq {F : Type} [SampleType F] {frame : List UInt8}
    {symbols : List (ComplexT F)} (h : Transmits frame symbols) :
    symbols.length = SYNC_SYMS + FRAME_SYMS := by
  obtain ⟨bits, -, rfl⟩ := h
  simp [Framer.syncSyms, wordSyms, bitSyms_length, FRAME_SYMS]

theorem symbols_length {F : Type} [SampleType F] {frames : List (List UInt8)}
    {symbols : List (List (ComplexT F))} (h : List.Forall₂ Transmits frames symbols) :
    symbols.flatten.length = frames.length * (SYNC_SYMS + FRAME_SYMS) := by
  induction h with
  | nil => rfl
  | cons hfirst _ ih =>
    rw [List.flatten_cons, List.length_append, hfirst.length_eq, ih, List.length_cons,
      Nat.add_comm, ← Nat.succ_mul]

namespace Transmitter

/-- What `init` is given, and the computations on floats behind it. -/
structure Waveform (F D : Type) where
  baudrate : D
  samplerate : D
  /-- `RYFI_RRC_BETA`. -/
  rrcBeta : D
  rootRaisedCosine : Nat → D → D → D → Tap F
  dotProd : List (ComplexT F × F) → ComplexT F

section

variable {F D : Type} [SampleType F] [RateType D] (wave : Waveform F D)

/-- `resamp`, with 63 symbols under the pulse. -/
def Waveform.resamp : Machine (ComplexT F) (ComplexT F) :=
  RRCInterpolator.machine wave.baudrate wave.samplerate wave.rootRaisedCosine wave.dotProd
    wave.rrcBeta 63

/-- What `resamp` makes of the symbols. -/
def Waveform.samples : List (ComplexT F) → List (ComplexT F) :=
  RRCInterpolator.interpolated wave.dotProd wave.baudrate wave.samplerate wave.rootRaisedCosine
    wave.rrcBeta 63

/-- Rates that are not 0, and a pulse of the length that was asked for. -/
abbrev Waveform.Proper : Prop :=
  RRCInterpolator.Proper wave.baudrate wave.samplerate wave.rootRaisedCosine 63

theorem Waveform.Proper.streaming (hproper : wave.Proper) :
    ∃ Inv, wave.resamp.Streaming Inv wave.samples :=
  ⟨_, RRCInterpolator.Proper.streaming wave.dotProd hproper⟩

theorem Waveform.Proper.samples_initial (hproper : wave.Proper) (l l' : List (ComplexT F)) :
    wave.samples l <+: wave.samples (l ++ l') :=
  RRCInterpolator.interpolated_initial hproper l l'

theorem Waveform.Proper.samples_length (hproper : wave.Proper) {frames : List (List UInt8)}
    {symbols : List (List (ComplexT F))} (h : List.Forall₂ Transmits frames symbols) :
    (wave.samples symbols.flatten).length = RRCInterpolator.symbolSamples wave.baudrate
      wave.samplerate (frames.length * (SYNC_SYMS + FRAME_SYMS)) := by
  rw [← symbols_length h]
  exact RRCInterpolator.interpolated_length wave.dotProd hproper symbols.flatten

def waveformBlocks : ∀ i, Machine (Sample F i) (Sample F (i + 1))
  | 0 => RSEncoder.machine
  | 1 => ConvEncoder.machine
  | 2 => Framer.machine F
  | 3 => wave.resamp
  | _ + 4 => absent _ _

/-- `rs`, `conv`, `framer` and `resamp`. -/
abbrev waveformThreads : Chain 4 := pipeline 4 (waveformBlocks wave)

theorem exists_start_waveform : ∃ start : (waveformThreads wave).State, Initial start :=
  exists_initial fun i => match i with
    | 0 => ⟨_, default, rfl⟩
    | 1 => ⟨_, Convolutional.zeroed, rfl⟩
    | 2 => ⟨(), trivial⟩
    | 3 => ⟨_, fun _ => 0, rfl⟩
    | _ + 4 => ⟨(), trivial⟩

variable {wave} {start s : (waveformThreads wave).State}

section

variable (h : Initial start) (hs : (waveformThreads wave).Reachable start s)

include h hs

theorem waveform_encoding : Encoding (s.cell 0) (s.proc 0) (s.cell 1) (s.proc 1) (s.cell 2)
    (s.proc 2) (s.cell 3) :=
  have hholds := holds_reachable h hs
  ⟨hholds.proc 0 (by decide), hholds.proc 1 (by decide), hholds.proc 2 (by decide),
    hholds.cell 0 (by decide), hholds.cell 1 (by decide), hholds.cell 2 (by decide)⟩

theorem waveform_returns (hsize : ∀ frame ∈ (s.cell 0).sent, frame.length = 892) : Returns s := by
  have hencoding := waveform_encoding h hs
  intro i hi count next hphase
  match i with
  | 0 => exact hencoding.rs_returns hsize hphase
  | 1 => exact hencoding.conv_returns hphase
  | 2 => exact hencoding.framer_returns hphase
  | 3 => exact ⟨_, _, rfl, rfl⟩

theorem waveform_made (hproper : wave.Proper) :
    ∃ made, made.flatten <+: wave.samples (s.cell 3).sent.flatten ∧
      (s.cell 4).sent.Sublist made ∧ made.length ≤ (s.cell 4).sent.length + (s.proc 3).stops := by
  have hholds := holds_reachable h hs
  obtain ⟨Inv, hstream⟩ := Waveform.Proper.streaming wave hproper
  exact (hholds.proc 3 (by decide)).stream_made hstream
    (Waveform.Proper.samples_initial wave hproper) (hholds.cell 3 (by decide))

theorem waveform_all (hproper : wave.Proper) (hquiet : Quiet s)
    (hsize : ∀ frame ∈ (s.cell 0).sent, frame.length = 892)
    (hstops : ∀ i, i < 4 → (s.proc i).stops = 0) :
    List.Forall₂ (Transmits (F := F)) (s.cell 0).sent (s.cell 3).sent ∧
      (s.cell 4).sent.flatten = wave.samples (s.cell 3).sent.flatten := by
  have hreturns := waveform_returns h hs hsize
  have hencoding := waveform_encoding h hs
  have hrs := drained_one h hs hquiet hreturns (i := 0) (by decide) (hstops 0 (by decide))
    RSEncoder.oneForOne fun _ _ => trivial
  have hconv := drained_one h hs hquiet hreturns (i := 1) (by decide) (hstops 1 (by decide))
    ConvEncoder.oneForOne hencoding.bytes_length
  have hframer := drained_one h hs hquiet hreturns (i := 2) (by decide) (hstops 2 (by decide))
    Framer.oneForOne hencoding.bits_length
  obtain ⟨Inv, hstream⟩ := Waveform.Proper.streaming wave hproper
  exact ⟨hencoding.symbols_all hrs hconv hframer,
    drained_stream h hs hquiet hreturns (i := 3) (by decide) (hstops 3 (by decide)) hstream⟩

end

end

/-! ## At the default baudrate -/

/-- 720 kBd at 1.5 MHz, with a rectangular pulse. -/
def sampleWave : Waveform Rat Nat where
  baudrate := 720000
  samplerate := 1500000
  rrcBeta := 0
  rootRaisedCosine count _ _ _ := ⟨fun _ => 1, count⟩
  dotProd l := l.foldl (fun sum p => ⟨sum.re + p.1.re * p.2, sum.im + p.1.im * p.2⟩) 0

theorem proper_sampleWave : sampleWave.Proper where
  symbolrate_pos := by decide
  samplerate_pos := by decide
  count_pos := by decide
  size_eq _ _ _ _ := rfl

theorem waveform_advances {F D : Type} [SampleType F] [RateType D] (wave : Waveform F D) :
    ∀ i, i < 4 → Advances (waveformBlocks wave i)
  | 0, _, _, _, _, _, _, _, ⟨_, _, _, _, _, _, houtcome⟩ => by cases houtcome
  | 1, _, _, _, _, _, _, _, ⟨_, houtcome⟩ => by cases houtcome
  | 2, _, _, _, _, _, _, _, ⟨_, houtcome⟩ => by cases houtcome
  | 3, _, _, _, _, _, _, _, ⟨_, houtcome⟩ => by cases houtcome

end Transmitter

end RyFi.Modem
