import RyFi.Conv.UsedInstance
import RyFi.Conv.Encoding

/-! # Decoding what was sent

`Survives` says that the sent path is the one selected for its state after every slice.
Where it survives and every burst starts on it, the decoder returns the message
(`returns_of_survives`).  With every soft value on the right side of the middle the sent
path is cheaper than any other from the second slice on, whatever the confidences are.
-/

namespace RyFi.Conv

open ShiftTrellis

variable {soft msg : Nat → UInt8} {n : Nat}

/-! ## The decoded bits -/

/-- The number of slices of a message of `n` bytes. -/
def slicesOf (n : Nat) : Nat := 8 * n + 8

/-- The message bytes are the value of the input bits. -/
theorem decodedBytes {decoded : List Bool} {w : BitWriter} {out : Nat → UInt8}
    (hholds : BitWriter.Holds out decoded w) (hlen : decoded.length = 8 * n + 2)
    (hbits : ∀ u, u < 8 * n → decoded[u]? = some (inputBit msg n u)) {i : Nat} (hi : i < n) :
    w.bytes i = msg i := by
  refine byte_ext fun j hj => ?_
  have hbit := BitWriter.bufferBit_of_holds hholds (k := 8 * i + j) (by omega)
  rw [hbits _ (by omega)] at hbit
  have hsame := Option.some.inj hbit
  rw [inputBit, decide_eq_true (by omega), Bool.true_and, bufferBit, bufferBit,
    show (8 * i + j) / 8 = i by omega, show (8 * i + j) % 8 = j by omega] at hsame
  exact hsame

/-- The input bits after the message are zero, so the sent path ends in state 0. -/
theorem inputPath_end (msg : Nat → UInt8) (n : Nat) {t : Nat} (h : slicesOf n - 6 ≤ t) :
    skipAt (slicesOf n) t ∣ inputPath msg n t := by
  obtain ⟨k, rfl⟩ : ∃ k, t = slicesOf n - 6 + k := ⟨t - (slicesOf n - 6), by omega⟩
  rw [skipAt, Nat.add_sub_cancel_left]
  induction k with
  | zero => simp
  | succ k ih =>
    have hzero : inputBit msg n (slicesOf n - 6 + k) = false := by
      have hslices : slicesOf n = 8 * n + 8 := rfl
      rw [inputBit, decide_eq_false (by omega), Bool.false_and]
    rw [← Nat.add_assoc, inputPath, hzero, Nat.pow_succ']
    exact Nat.mul_dvd_mul_left 2 (ih (by omega))

theorem skipAt_dvd {t : Nat} (ht : t ≤ slicesOf n) : skipAt (slicesOf n) t ∣ 64 := by
  rw [skipAt, show (64 : Nat) = 2 ^ 6 from rfl]
  exact Nat.pow_dvd_pow 2 (by omega)

/-- The state of the sent path is one that matters. -/
theorem skipAt_dvd_state {t : Nat} (ht : t ≤ slicesOf n) :
    skipAt (slicesOf n) t ∣ inputPath msg n t % 64 := by
  refine (Nat.dvd_mod_iff (skipAt_dvd ht)).mpr ?_
  by_cases htail : slicesOf n - 6 ≤ t
  · exact inputPath_end msg n htail
  · rw [skipAt, show t - (slicesOf n - 6) = 0 by omega, Nat.pow_zero]
    exact Nat.one_dvd _

theorem inputPath_end_state : inputPath msg n (slicesOf n) % 64 = 0 := by
  have hdvd := inputPath_end msg n (t := slicesOf n) (by omega)
  rw [skipAt, show slicesOf n - (slicesOf n - 6) = 6 by simp only [slicesOf]; omega] at hdvd
  exact Nat.mod_eq_zero_of_dvd hdvd

/-- The path a burst reads after `t` slices agrees with the sent one long enough. -/
def BurstAgrees (soft msg : Nat → UInt8) (n t : Nat) : Prop :=
  let T := trellis soft (slicesOf n)
  T.best t (winner (T.metric t) (skipAt (slicesOf n) t)) / 2 ^ 41 = inputPath msg n (t - 41)

/-- Reading bits off the burst paths and the last path gives the message. -/
theorem decodedBit_of_agrees
    (hburst : ∀ t, 146 ≤ t → t ≤ slicesOf n → BurstAgrees soft msg n t)
    (hlast : (trellis soft (slicesOf n)).best (slicesOf n) 0 = inputPath msg n (slicesOf n))
    {u : Nat} (hu : u < slicesOf n - 6) :
    decodedBit soft (slicesOf n) u = inputBit msg n u := by
  simp only [decodedBit]
  by_cases hle : burstTime u ≤ slicesOf n
  · rw [if_pos hle]
    have htime : burstTime u = 146 + 105 * (u / 105) := rfl
    have hagree := hburst (burstTime u) (by omega) hle
    have hbit := inputPath_testBit msg n (t := burstTime u - 41) (u := u) (by omega)
    rw [← hagree, Nat.testBit_div_two_pow] at hbit
    rw [← hbit]
    congr 1
    omega
  · rw [if_neg hle, hlast]
    exact inputPath_testBit _ _ (by omega)

namespace Convolutional

variable {conv : Convolutional}

/-- The decode call returns the message: its length, and its bytes in `out`. -/
def Returns (conv : Convolutional) (neon : Bool) (soft out msg : Nat → UInt8) (n : Nat) : Prop :=
  ∃ conv', conv.decodeSoft neon soft (2 * slicesOf n) out = .done conv' n ∧
    (∀ i, i < n → conv'.bitWriter.bytes i = msg i) ∧
    ∀ i, n ≤ i → conv'.bitWriter.bytes i = out i

/-- The decoder returns the message exactly when the decoded bits are the message's. -/
theorem returns_iff (h : Ready conv) (neon : Bool) (out : Nat → UInt8) (hn : 1 ≤ n)
    (hlt : slicesOf n < 2 ^ 32) :
    Returns conv neon soft out msg n ↔
      ∀ u, u < 8 * n → decodedBit soft (slicesOf n) u = inputBit msg n u := by
  have hlarge : 12 ≤ slicesOf n := by
    simp only [slicesOf]
    omega
  have hbytes : (slicesOf n - 6) / 8 = n := by
    simp only [slicesOf]
    omega
  obtain ⟨conv', hdone, hholds, -⟩ := decodeSoft_code h neon soft out hlarge hlt
  rw [hbytes] at hdone
  have hlen : (decodedBits soft (slicesOf n) (slicesOf n - 6)).length = 8 * n + 2 := by
    simp only [decodedBits, slicesOf, List.length_map, List.length_range]
    omega
  have hget : ∀ u, u < 8 * n → (decodedBits soft (slicesOf n) (slicesOf n - 6))[u]? =
      some (decodedBit soft (slicesOf n) u) := by
    intro u hu
    have hlt : u < slicesOf n - 6 := by
      simp only [slicesOf]
      omega
    rw [decodedBits, List.getElem?_map, List.getElem?_range hlt, Option.map_some]
  constructor
  · rintro ⟨conv'', hdone', hbytes', -⟩ u hu
    rw [hdone] at hdone'
    obtain ⟨rfl⟩ := Result.done.inj hdone'
    have hbit := BitWriter.bufferBit_of_holds hholds (k := u) (by rw [hlen]; omega)
    rw [hget u hu] at hbit
    rw [← Option.some.inj hbit, inputBit, decide_eq_true hu, Bool.true_and, bufferBit, bufferBit,
      hbytes' _ (by omega)]
  · intro hbits
    refine ⟨conv', hdone, fun i hi => ?_, fun i hi => hholds.kept i (by rw [hlen]; omega)⟩
    exact decodedBytes hholds hlen (fun u hu => by rw [hget u hu, hbits u hu]) hi

/-- Beyond 2^32 slices the count wraps, and another length is returned or none. -/
theorem not_returns_of_wrap (h : Ready conv) (neon : Bool) (out : Nat → UInt8)
    (hge : 2 ^ 32 ≤ slicesOf n) : ¬ Returns conv neon soft out msg n := by
  rintro ⟨conv', hdone, -⟩
  obtain ⟨bits, hlength, hbits, -⟩ := decodeSoft_wraps h neon soft out hdone
  have hslices : slicesOf n = 8 * n + 8 := rfl
  omega

end Convolutional

/-! ## Any confidence -/

/-- Every soft value is on the side of the bit sent. -/
def Confident (soft msg : Nat → UInt8) (n : Nat) : Prop :=
  ∀ k, k < 2 * slicesOf n → (128 ≤ (soft k).toNat ↔ Convolutional.sentBit msg n k = true)

theorem bitCost_lt {y : UInt8} {sent other : Bool} (h : 128 ≤ y.toNat ↔ sent = true)
    (hne : other ≠ sent) : bitCost y sent < bitCost y other := by
  have hy := y.toNat_lt
  cases sent <;> cases other <;> simp [bitCost] at h hne ⊢ <;> omega

theorem bitCost_le_of {y : UInt8} {sent : Bool} (h : 128 ≤ y.toNat ↔ sent = true) (other : Bool) :
    bitCost y sent ≤ bitCost y other := by
  by_cases hne : other = sent
  · rw [hne]
  · exact Nat.le_of_lt (bitCost_lt h hne)

/-- The second slice tells the first two bits apart: it sees both of them. -/
theorem codeTable_second {a b : Nat} (ha : a < 4) (hb : b < 4) (hne : a / 2 ≠ b / 2) :
    ∃ j < 2, (codeTable b).testBit j ≠ (codeTable a).testBit j := by
  have hall : ∀ a b : Fin 4, a.val / 2 ≠ b.val / 2 →
      ∃ j < 2, (codeTable b.val).testBit j ≠ (codeTable a.val).testBit j := by
    decide +kernel
  exact hall ⟨a, ha⟩ ⟨b, hb⟩ hne

section Confident

variable (h : Confident soft msg n)

include h

/-- No output is cheaper than the one sent, and every other one is dearer. -/
theorem sliceCost_confident {t : Nat} (ht : t < slicesOf n) (out : Nat) :
    sliceCost soft t (codeTable (inputPath msg n (t + 1) % 128)) ≤ sliceCost soft t out ∧
      ((∃ j < 2, out.testBit j ≠ (codeTable (inputPath msg n (t + 1) % 128)).testBit j) →
        sliceCost soft t (codeTable (inputPath msg n (t + 1) % 128)) < sliceCost soft t out) := by
  have h0 := h (2 * t) (by omega)
  have h1 := h (2 * t + 1) (by omega)
  simp only [Convolutional.sentBit, show 2 * t / 2 = t by omega, show 2 * t % 2 = 0 by omega,
    show (2 * t + 1) / 2 = t by omega, show (2 * t + 1) % 2 = 1 by omega] at h0 h1
  generalize codeTable (inputPath msg n (t + 1) % 128) = sent at h0 h1 ⊢
  have hle0 := bitCost_le_of h0 (out.testBit 0)
  have hle1 := bitCost_le_of h1 (out.testBit 1)
  simp only [sliceCost]
  refine ⟨by omega, ?_⟩
  rintro ⟨j, hj, hne⟩
  obtain rfl | rfl : j = 0 ∨ j = 1 := by omega
  · have := bitCost_lt h0 hne
    omega
  · have := bitCost_lt h1 hne
    omega

/-- The sent path is never dearer than another, and cheaper from the second slice on. -/
theorem pathCost_confident {t v : Nat} (ht : t ≤ slicesOf n) (hv : v < 2 ^ t) :
    (trellis soft (slicesOf n)).pathCost t (inputPath msg n t) ≤
        (trellis soft (slicesOf n)).pathCost t v ∧
      (2 ≤ t → v ≠ inputPath msg n t →
        (trellis soft (slicesOf n)).pathCost t (inputPath msg n t) <
          (trellis soft (slicesOf n)).pathCost t v) := by
  induction t generalizing v with
  | zero => simp [Trellis.pathCost]
  | succ t ih =>
    have hhalf := inputPath_half msg n t
    have hlt := inputPath_lt msg n (t + 1)
    obtain ⟨hpast, hpastLt⟩ := ih (v := v / 2) (by omega) (by rw [Nat.pow_succ] at hv; omega)
    obtain ⟨hslice, hsliceLt⟩ := sliceCost_confident h (t := t) (by omega) (codeTable (v % 128))
    simp only [Trellis.pathCost, trellis_memory, hhalf]
    by_cases hfirst : t = 0
    · -- the first slice costs nothing
      subst hfirst
      refine ⟨?_, fun htwo => absurd htwo (by omega)⟩
      simp only [trellis, if_true, Nat.add_zero] at hpast ⊢
      exact hpast
    · have hcost : ∀ r, (trellis soft (slicesOf n)).cost t r = sliceCost soft t (codeTable r) :=
        fun r => if_neg hfirst
      simp only [hcost, show 2 ^ (6 + 1) = 128 from rfl]
      refine ⟨Nat.add_le_add hpast hslice, fun htwo hne => ?_⟩
      by_cases hsame : v / 2 = inputPath msg n t
      · -- only the newest bit differs
        refine Nat.add_lt_add_of_le_of_lt hpast (hsliceLt ⟨0, by omega, ?_⟩)
        have hnewest := codeTable_newest (p := inputPath msg n t % 64)
          (Nat.mod_lt _ (by omega)) 0 (by omega)
        rw [show v % 128 = 2 * (inputPath msg n t % 64) + v % 2 by omega,
          show inputPath msg n (t + 1) % 128 =
            2 * (inputPath msg n t % 64) + inputPath msg n (t + 1) % 2 by omega]
        rcases Nat.mod_two_eq_zero_or_one v with hv0 | hv1
        · rw [hv0, show inputPath msg n (t + 1) % 2 = 1 by omega, hnewest]
          simp
        · rw [hv1, show inputPath msg n (t + 1) % 2 = 0 by omega, hnewest]
          simp
      · -- the paths differ before: by induction, and slice 1 still sees the first bit
        by_cases hsecond : t = 1
        · subst hsecond
          refine Nat.add_lt_add_of_le_of_lt hpast (hsliceLt ?_)
          rw [Nat.mod_eq_of_lt (show v < 128 by omega),
            Nat.mod_eq_of_lt (show inputPath msg n (1 + 1) < 128 by omega)]
          exact codeTable_second (a := inputPath msg n (1 + 1)) (b := v) (by omega) (by omega)
            (by rw [hhalf]; exact fun h => hsame h.symm)
        · exact Nat.add_lt_add_of_lt_of_le (hpastLt (by omega) hsame) hslice

/-- The sent path is the one selected for its state. -/
theorem best_confident {t : Nat} (ht : 2 ≤ t) (hle : t ≤ slicesOf n) :
    (trellis soft (slicesOf n)).best t (inputPath msg n t % 64) = inputPath msg n t :=
  Trellis.best_of_unique (T := trellis soft (slicesOf n)) (by simp) (inputPath_lt _ _ t)
    fun _ hv hne _ => (pathCost_confident h hle hv).2 ht hne

/-- A burst starts from the state of the sent path: all others have larger metrics. -/
theorem winner_confident {t : Nat} (ht : 6 ≤ t) (hle : t ≤ slicesOf n) :
    winner ((trellis soft (slicesOf n)).metric t) (skipAt (slicesOf n) t) =
      inputPath msg n t % 64 := by
  have hpow : 2 ^ 6 ≤ 2 ^ t := Nat.pow_le_pow_right (by omega) ht
  have hlive : ∀ s, s < 64 → (trellis soft (slicesOf n)).Live t s := fun s hs => ⟨hs, by omega⟩
  have hstate := Nat.mod_lt (inputPath msg n t) (show 0 < 64 by omega)
  have hsent := Trellis.pathCost_best (by simp) (hlive _ hstate)
  rw [best_confident h (by omega) hle] at hsent
  refine winner_eq hstate (skipAt_dvd_state hle) fun s hs _ => ?_
  by_cases hsame : s = inputPath msg n t % 64
  · exact Or.inr ⟨by rw [hsame], by omega⟩
  · refine Or.inl ?_
    have hbest := Trellis.pathCost_best (by simp) (hlive s hs)
    have hend := Trellis.best_state (by simp) (hlive s hs)
    rw [← hsent, ← hbest]
    refine (pathCost_confident h hle (Trellis.best_lt t s)).2 (by omega) fun heq => hsame ?_
    rw [heq] at hend
    exact hend.symm

theorem decodedBit_confident {u : Nat} (hn : 1 ≤ n) (hu : u < slicesOf n - 6) :
    decodedBit soft (slicesOf n) u = inputBit msg n u := by
  refine decodedBit_of_agrees (fun t hge hle => ?_) ?_ hu
  · simp only [BurstAgrees]
    rw [winner_confident h (by omega) hle, best_confident h (by omega) hle]
    have hshift := inputPath_shift msg n (t - 41) 41
    rw [Nat.sub_add_cancel (by omega)] at hshift
    exact hshift
  · have hbest := best_confident h (t := slicesOf n) (by simp only [slicesOf]; omega)
      (Nat.le_refl _)
    rw [inputPath_end_state] at hbest
    exact hbest

end Confident

namespace Convolutional

/-- Viterbi round trip for any confidence: the decoder returns the message exactly when the
    number of slices fits the 32-bit parameter of the phases. -/
theorem returns_confident_iff {enc dec : Convolutional} (henc : Configured 2 7 r12_7_polynomial enc)
    (hdec : Used 2 7 r12_7_polynomial dec) (neon : Bool) (encoded out : Nat → UInt8)
    (hn : 1 ≤ n)
    (hsoft : ∀ k, k < 2 * (8 * n + 8) →
      (128 ≤ (soft k).toNat ↔ bufferBit (enc.encode msg n encoded).1 k = true)) :
    Returns dec neon soft out msg n ↔ 8 * n + 8 < 2 ^ 32 := by
  have hconfident : Confident soft msg n := by
    intro k hk
    rw [hsoft k hk, encode_bit henc hk]
  have hready := ready_used hdec
  constructor
  · intro hreturns
    by_contra hge
    exact not_returns_of_wrap hready neon out (Nat.le_of_not_lt hge) hreturns
  · intro hlt
    refine (returns_iff hready neon out hn hlt).mpr fun u hu => ?_
    exact decodedBit_confident hconfident hn (by simp only [slicesOf]; omega)

/-- Full confidence in every bit of a buffer. -/
def hardSoft (bytes : Nat → UInt8) (k : Nat) : UInt8 := if bufferBit bytes k then 255 else 0

theorem hardSoft_side (bytes : Nat → UInt8) (k : Nat) :
    128 ≤ (hardSoft bytes k).toNat ↔ bufferBit bytes k = true := by
  cases h : bufferBit bytes k <;> simp [hardSoft, h]

/-- One byte, at full confidence. -/
theorem returns_confident_one :
    Returns fresh false (hardSoft (fresh.encode (fun _ => 0x5A) 1 (fun _ => 0)).1) (fun _ => 0)
      (fun _ => 0x5A) 1 ↔ 8 * 1 + 8 < 2 ^ 32 :=
  returns_confident_iff (configured_create create_fresh) (Used.create create_fresh) false
    (fun _ => 0) (fun _ => 0) (by omega) fun k _ => hardSoft_side _ k

/-- With 2^29 bytes the phases see eight slices only, and the decoder returns 0. -/
theorem not_returns_long :
    (∀ k, k < 2 * (8 * 2 ^ 29 + 8) →
      (128 ≤ (hardSoft (fresh.encode (fun _ => 0) (2 ^ 29) (fun _ => 0)).1 k).toNat ↔
        bufferBit (fresh.encode (fun _ => 0) (2 ^ 29) (fun _ => 0)).1 k = true)) ∧
      ¬ Returns fresh false (hardSoft (fresh.encode (fun _ => 0) (2 ^ 29) (fun _ => 0)).1)
        (fun _ => 0) (fun _ => 0) (2 ^ 29) := by
  refine ⟨fun k _ => hardSoft_side _ k, ?_⟩
  generalize hardSoft (fresh.encode (fun _ => 0) (2 ^ 29) (fun _ => 0)).1 = soft
  refine not_returns_of_wrap (ready_used (Used.create create_fresh)) false (fun _ => 0) ?_
  simp only [slicesOf]
  omega

end Convolutional

end RyFi.Conv
