import RyFi.Conv.Ring
import RyFi.Conv.Instance

/-! # How many bits a decode writes

One bit for every slice the history buffer has processed, whatever the metrics are: the
bursts and the flush of `Ring` lose none and repeat none.
-/

namespace RyFi.Conv

open CLoop

/-- A loop that advances a counted property runs it on by the number of its iterations. -/
theorem forLoop_counts {σ : Type} (lo hi : Nat) {body : Nat → σ → σ} {P : Nat → σ → Prop}
    (hbody : ∀ n i s, P n s → P (n + 1) (body i s)) {n : Nat} {s : σ} (h : P n s) :
    P (n + (hi - lo)) (forLoop lo hi body s) := by
  by_cases hle : lo ≤ hi
  · refine forLoop_induct (fun i s => P (n + (i - lo)) s) hle ?_ ?_
    · simpa using h
    · intro i s hlo _ hs
      rw [show n + (i + 1 - lo) = n + (i - lo) + 1 by omega]
      exact hbody _ i s hs
  · rw [forLoop_of_le (by omega), show n + (hi - lo) = n by omega]
    exact h

namespace Convolutional

/-- `n` slices were processed, every one of them a bit written or still in the buffer. -/
def Counted (msg : Nat → UInt8) (n : Nat) (conv : Convolutional) : Prop :=
  HistoryBuffer.Counts msg n conv.historyBuffer conv.bitWriter

variable {msg : Nat → UInt8} {n : Nat} {conv : Convolutional}

theorem counted_finishSlice (h : Counted msg n conv) (neon : Bool) (s : Slice) (skip : Nat) :
    Counted msg (n + 1) (conv.finishSlice neon s skip) :=
  HistoryBuffer.counts_processSkip h neon s.history s.errors skip

theorem counted_fillDistances (h : Counted msg n conv) (soft : Option (Nat → UInt8)) (i : Nat) :
    Counted msg n (conv.fillDistances soft i) := by
  cases soft <;> exact h

theorem counted_innerSlice (h : Counted msg n conv) (neon : Bool) (soft : Option (Nat → UInt8))
    (i : Nat) : Counted msg (n + 1) (conv.innerSlice neon soft i) := by
  simp only [innerSlice]
  exact counted_finishSlice (counted_fillDistances h soft i) neon _ _

theorem counted_tailSlice (h : Counted msg n conv) (neon : Bool) (sets : Nat)
    (soft : Option (Nat → UInt8)) (i : Nat) :
    Counted msg (n + 1) (conv.tailSlice neon sets soft i) := by
  simp only [tailSlice]
  exact counted_finishSlice (counted_fillDistances h soft i) neon _ _

theorem counted_warmup (h : Counted msg n conv) (sets : Nat) (soft : Option (Nat → UInt8)) :
    Counted msg n (conv.warmup sets soft) :=
  forLoop_induct (fun _ c => Counted msg n c) (Nat.zero_le _) h
    fun i c _ _ hc => by cases soft <;> exact hc

/-- The inner and the tail phase process one slice per iteration, and the flush writes what
    is left. -/
theorem counted_decodePhases (h : Counted msg n conv) (neon : Bool) {sets : Nat}
    (hend : innerEnd sets conv.order < 2 ^ 32) (soft : Option (Nat → UInt8)) :
    ∃ bits, bits.length = n + (innerEnd sets conv.order - (conv.order - 1)) +
        (sets - innerEnd sets conv.order) ∧
      BitWriter.Holds msg bits (conv.decodePhases neon sets soft).bitWriter := by
  have hinner := forLoop_counts (conv.order - 1) (innerEnd sets conv.order)
    (fun n i c (hc : Counted msg n c) => counted_innerSlice hc neon soft i) h
  have hconfig := config_forLoop (conv.order - 1) (innerEnd sets conv.order)
    (config_innerSlice neon soft) conv
  unfold decodePhases
  generalize forLoop (conv.order - 1) (innerEnd sets conv.order) (innerSlice neon soft) conv = c
    at hinner hconfig ⊢
  have horder : c.order = conv.order := congrArg Config.order hconfig
  have htail := forLoop_counts (innerEnd sets c.order % 2 ^ 32) sets
    (fun n i c (hc : Counted msg n c) => counted_tailSlice hc neon sets soft i) hinner
  rw [horder, Nat.mod_eq_of_lt hend] at htail
  simp only [horder, Nat.mod_eq_of_lt hend]
  exact HistoryBuffer.counts_flush htail

theorem counted_decodeStart (msg : Nat → UInt8) {rate order : Nat} {poly : Nat → Nat}
    (h : Configured rate order poly conv) (horder : 0 < order) (numEncodedBytes : Nat) :
    Counted msg 0 (conv.decodeStart numEncodedBytes msg) := by
  have hconfig := config_decodeStart h numEncodedBytes msg
  have hcap : (conv.decodeStart numEncodedBytes msg).historyBuffer.cap = 5 * order + 15 * order :=
    congrArg Config.cap hconfig
  have hmin : (conv.decodeStart numEncodedBytes msg).historyBuffer.minTracebackLength =
    5 * order := congrArg Config.minTracebackLength hconfig
  have hlen : (conv.decodeStart numEncodedBytes msg).historyBuffer.len = 0 := rfl
  refine ⟨⟨by omega, ?_, Nat.le_of_eq hlen⟩, by omega, by omega, [], ?_, ?_⟩
  · rw [Nat.zero_mod]
    rfl
  · rw [hlen]
    rfl
  · exact BitWriter.holds_reconfigure msg numEncodedBytes

theorem innerEnd_eq {sets order : Nat} (horder : 0 < order) (h : order ≤ sets + 1)
    (hsets : sets < 2 ^ 32) : innerEnd sets order = sets + 1 - order := by
  simp only [innerEnd]
  omega

theorem innerEnd_wraps {sets order : Nat} (h : sets + 1 < order) (horder : order < 2 ^ 32) :
    2 ^ 32 ≤ innerEnd sets order := by
  simp only [innerEnd]
  omega

/-- A decode that has enough slices writes one bit for each of them after the warmup. -/
theorem decodeSets_counts {rate order : Nat} {poly : Nat → Nat}
    (h : Configured rate order poly conv) (horder : 0 < order) (neon : Bool)
    (numEncodedBits numEncodedBytes : Nat) (msg : Nat → UInt8) (soft : Option (Nat → UInt8))
    (hsets : order ≤ numEncodedBits / rate % 2 ^ 32 + 1) :
    ∃ conv' bits,
      conv.decodeSets neon numEncodedBits numEncodedBytes msg soft =
        some (conv', bits.length / 8) ∧
      bits.length = max (order - 1) (numEncodedBits / rate % 2 ^ 32 - (order - 1)) ∧
      BitWriter.Holds msg bits conv'.bitWriter := by
  generalize hsets' : numEncodedBits / rate % 2 ^ 32 = sets at hsets
  have hlt : sets < 2 ^ 32 := by
    rw [← hsets']
    exact Nat.mod_lt _ (Nat.two_pow_pos 32)
  have hend := innerEnd_eq horder hsets hlt
  have hstart := counted_warmup
    (counted_decodeStart msg h horder numEncodedBytes) sets soft
  have hconfig := (config_warmup (conv.decodeStart numEncodedBytes msg) sets soft).trans
    (config_decodeStart h numEncodedBytes msg)
  simp only [decodeSets, h.rate_eq, hsets']
  generalize (conv.decodeStart numEncodedBytes msg).warmup sets soft = start at hstart hconfig
  have hstartOrder : start.order = order := congrArg Config.order hconfig
  obtain ⟨bits, hlen, hholds⟩ := counted_decodePhases hstart neon
    (show innerEnd sets start.order < 2 ^ 32 by rw [hstartOrder]; omega) soft
  rw [hstartOrder, hend] at hlen
  rw [hstartOrder, if_pos (by omega)]
  refine ⟨_, bits, ?_, by omega, hholds⟩
  rw [BitWriter.length, hholds.byteIndex]

/-- With fewer slices than the warmup leaves over, the loop bound wraps. -/
theorem decodeSets_never {rate order : Nat} {poly : Nat → Nat}
    (h : Configured rate order poly conv) (horder : order < 2 ^ 32) (neon : Bool)
    (numEncodedBits numEncodedBytes : Nat) (msg : Nat → UInt8) (soft : Option (Nat → UInt8))
    (hsets : numEncodedBits / rate % 2 ^ 32 + 1 < order) :
    conv.decodeSets neon numEncodedBits numEncodedBytes msg soft = none := by
  generalize hsets' : numEncodedBits / rate % 2 ^ 32 = sets at hsets
  have hconfig := (config_warmup (conv.decodeStart numEncodedBytes msg) sets soft).trans
    (config_decodeStart h numEncodedBytes msg)
  simp only [decodeSets, h.rate_eq, hsets']
  generalize (conv.decodeStart numEncodedBytes msg).warmup sets soft = start at hconfig
  have hstartOrder : start.order = order := congrArg Config.order hconfig
  have hwraps := innerEnd_wraps hsets horder
  rw [hstartOrder, if_neg (by omega)]

end Convolutional

end RyFi.Conv
