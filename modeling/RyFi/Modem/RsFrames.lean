import RyFi.Modem.RsCodec
import RyFi.Rs.FewErrors

/-! # Frames through the Reed-Solomon stage

The loop over the four blocks of `RSDecoder::decode`, which decodes blocks near code words one
after the other, and what a frame that it passes on is: four code words.
-/

namespace RyFi.Modem

open CLoop RyFi.Rs RyFi.Rs.ReedSolomon

theorem scramble_apply (bytes : Nat → UInt8) {j : Nat} (hj : j < 1020) :
    scramble bytes j = bytes j ^^^ RS_SCRAMBLER_SEQ.getD j 0 := by
  rw [scramble, forLoop_modify 0 (RS_BLOCK_COUNT * RS_BLOCK_ENC_SIZE)
    (fun i b => b ^^^ RS_SCRAMBLER_SEQ.getD i 0), if_pos ⟨Nat.zero_le j, hj⟩]

theorem interleaveLen_frame {i : Nat} (hi : i < 4) : interleaveLen i 1020 = 255 := by
  rw [interleaveLen, RS_BLOCK_COUNT]
  omega

namespace RSDecoder

/-- The variables of `decode` after `i` blocks. -/
def afterBlocks (d : RSDecoder) (input block : Nat → UInt8) (i : Nat) : Decoding :=
  forLoop 0 i (decodeBlock (scramble input) (RS_BLOCK_COUNT * RS_BLOCK_ENC_SIZE))
    ⟨d.rs, block, d.writeBuf, false⟩

variable {d : RSDecoder} {input block : Nat → UInt8}

theorem afterBlocks_succ (d : RSDecoder) (input block : Nat → UInt8) (i : Nat) :
    d.afterBlocks input block (i + 1) = decodeBlock (scramble input)
      (RS_BLOCK_COUNT * RS_BLOCK_ENC_SIZE) i (d.afterBlocks input block i) :=
  forLoop_succ (Nat.zero_le i) _ _

/-- A failed block stops the decoding. -/
theorem not_failed_of_succ {i : Nat} (h : (d.afterBlocks input block (i + 1)).failed = false) :
    (d.afterBlocks input block i).failed = false := by
  by_contra hfailed
  rw [afterBlocks_succ, decodeBlock, if_pos (by simpa using hfailed)] at h
  exact hfailed h

theorem not_failed_of_le {i n : Nat} (hin : i ≤ n)
    (h : (d.afterBlocks input block n).failed = false) :
    (d.afterBlocks input block i).failed = false := by
  induction n, hin using Nat.le_induction with
  | base => exact h
  | succ n _ ih => exact ih (not_failed_of_succ h)

/-- One block that decodes. -/
theorem afterBlocks_block {i : Nat} (h : (d.afterBlocks input block i).failed = false) :
    let s := d.afterBlocks input block i
    let s' := d.afterBlocks input block (i + 1)
    let r := s.rs.decode s'.block 255 s.out (i * RS_BLOCK_DEC_SIZE)
    s'.rs = r.1 ∧ s'.out = r.2.2 ∧ s'.failed = r.2.1.isNone := by
  simp only
  rw [afterBlocks_succ, decodeBlock, if_neg (by simpa using h)]
  exact ⟨rfl, rfl, rfl⟩

theorem afterBlocks_rs (h : ReedSolomon.Reachable d.rs) (input block : Nat → UInt8) (i : Nat) :
    ReedSolomon.Reachable (d.afterBlocks input block i).rs := by
  refine forLoop_induct (fun _ (s : Decoding) => ReedSolomon.Reachable s.rs) (Nat.zero_le i)
    h fun i s _ _ hs => ?_
  rw [decodeBlock]
  split
  next => exact hs
  next => exact .decode hs _ _ _ _

/-- Later blocks keep the bytes of earlier ones. -/
theorem afterBlocks_out (h : ReedSolomon.Reachable d.rs) {i n j : Nat} (hin : i ≤ n)
    (hj : j < i * RS_BLOCK_DEC_SIZE) :
    (d.afterBlocks input block n).out j = (d.afterBlocks input block i).out j := by
  induction n, hin using Nat.le_induction with
  | base => rfl
  | succ n hin ih =>
    rw [← ih]
    by_cases hfailed : (d.afterBlocks input block n).failed = true
    · rw [afterBlocks_succ, decodeBlock, if_pos hfailed]
    · obtain ⟨-, hout, -⟩ := afterBlocks_block (Bool.eq_false_of_not_eq_true hfailed)
      have hle : i * RS_BLOCK_DEC_SIZE ≤ n * RS_BLOCK_DEC_SIZE := Nat.mul_le_mul_right _ hin
      rw [hout]
      exact decode_other (afterBlocks_rs h input block n).usable _ _ _ (Or.inl (by omega))

theorem decode_eq_some {d' : RSDecoder} {count n : Nat}
    (h : d.decode input count block = some (d', n)) :
    count = RS_BLOCK_COUNT * RS_BLOCK_ENC_SIZE ∧
      d' = { d with rs := (d.afterBlocks input block RS_BLOCK_COUNT).rs
                    writeBuf := (d.afterBlocks input block RS_BLOCK_COUNT).out } ∧
      n = if (d.afterBlocks input block RS_BLOCK_COUNT).failed then 0
        else RS_BLOCK_COUNT * RS_BLOCK_DEC_SIZE := by
  rw [decode] at h
  split at h
  next hcount =>
    simp only [Option.some.injEq, Prod.mk.injEq] at h
    obtain ⟨rfl, rfl⟩ := h
    refine ⟨hcount, ?_, ?_⟩
    · rw [hcount]
      rfl
    · rw [hcount]
      rfl
  next => exact absurd h (by simp)

/-- The instance is only used through the calls of the library. -/
theorem reachable_rs (h : Reachable d) : ReedSolomon.Reachable d.rs := by
  induction h with
  | init raw writeBuf readBuf => exact .create raw
  | @run d d' input block count sent _ hd ih =>
    rw [RSDecoder.run] at hd
    split at hd
    next => exact absurd hd (by simp)
    next d₁ count₁ heq =>
      obtain ⟨-, rfl, -⟩ := decode_eq_some heq
      split at hd
      next =>
        simp only [Option.some.injEq, Prod.mk.injEq] at hd
        obtain ⟨rfl, -⟩ := hd
        exact afterBlocks_rs ih input block RS_BLOCK_COUNT
      next =>
        simp only [Option.some.injEq, Prod.mk.injEq] at hd
        obtain ⟨rfl, -⟩ := hd
        exact afterBlocks_rs ih input block RS_BLOCK_COUNT

/-! ## Blocks near code words -/

theorem decodeBlock_block (input : Nat → UInt8) (count i : Nat) {s : Decoding}
    (h : s.failed = false) :
    (decodeBlock input count i s).block = forLoop 0 (interleaveLen i count) (fun k block =>
      Function.update block k (input (i + RS_BLOCK_COUNT * k))) s.block := by
  rw [decodeBlock, if_neg (by rw [h]; exact Bool.false_ne_true)]

theorem afterBlocks_deinterleave {i k : Nat} (hi : i < 4) (hk : k < 255)
    (h : (d.afterBlocks input block i).failed = false) :
    (d.afterBlocks input block (i + 1)).block k = scramble input (i + 4 * k) := by
  have hlen : k < interleaveLen i (RS_BLOCK_COUNT * RS_BLOCK_ENC_SIZE) :=
    Nat.lt_of_lt_of_eq hk (interleaveLen_frame hi).symm
  rw [afterBlocks_succ, decodeBlock_block _ _ _ h,
    forLoop_update 0 _ (fun k => scramble input (i + RS_BLOCK_COUNT * k)),
    if_pos ⟨Nat.zero_le k, hlen⟩, RS_BLOCK_COUNT]

theorem decode_frame (d : RSDecoder) (input block : Nat → UInt8) :
    d.decode input (RS_BLOCK_COUNT * RS_BLOCK_ENC_SIZE) block =
      some ({ d with rs := (d.afterBlocks input block RS_BLOCK_COUNT).rs
                     writeBuf := (d.afterBlocks input block RS_BLOCK_COUNT).out },
        if (d.afterBlocks input block RS_BLOCK_COUNT).failed then 0
        else RS_BLOCK_COUNT * RS_BLOCK_DEC_SIZE) := if_pos rfl

/-- What a block differs in, before and after it is copied. -/
theorem errorSet_afterBlocks {i : Nat} (hi : i < 4)
    (h : (d.afterBlocks input block i).failed = false) (word : Nat → UInt8) :
    errorSet (d.afterBlocks input block (i + 1)).block word =
      errorSet (fun k => scramble input (i + 4 * k)) word := by
  refine Finset.filter_congr fun k hk => ?_
  rw [afterBlocks_deinterleave hi (Finset.mem_range.mp hk) h]

/-- Blocks near code words are decoded, one after the other. -/
theorem decodes_blocks (h : ReedSolomon.Reachable d.rs) {words : Nat → Nat → UInt8}
    (hwords : ∀ i, i < 4 → Codeword (words i))
    (hfew : ∀ i, i < 4 → (errorSet (fun k => scramble input (i + 4 * k)) (words i)).card ≤ 16)
    {n : Nat} (hn : n ≤ 4) :
    (d.afterBlocks input block n).failed = false ∧
      ∀ i j, i < n → j < 223 →
        (d.afterBlocks input block n).out (i * RS_BLOCK_DEC_SIZE + j) = words i j := by
  induction n with
  | zero => exact ⟨rfl, fun i j hi => absurd hi (Nat.not_lt_zero i)⟩
  | succ n ih =>
    obtain ⟨hfailed, hout⟩ := ih (by omega)
    obtain ⟨-, hnext, hresult⟩ := afterBlocks_block hfailed
    obtain ⟨hsome, hmessage⟩ := decode_few_errors (afterBlocks_rs h input block n).usable
      (hwords n hn) (by rw [errorSet_afterBlocks hn hfailed]; exact hfew n hn)
      (d.afterBlocks input block n).out (n * RS_BLOCK_DEC_SIZE)
    refine ⟨by rw [hresult, hsome]; rfl, fun i j hi hj => ?_⟩
    rcases Nat.lt_succ_iff_lt_or_eq.mp hi with hlt | rfl
    · have hle : (i + 1) * RS_BLOCK_DEC_SIZE ≤ n * RS_BLOCK_DEC_SIZE := Nat.mul_le_mul_right _ hlt
      have hbelow : i * RS_BLOCK_DEC_SIZE + j < n * RS_BLOCK_DEC_SIZE := by
        rw [Nat.succ_mul] at hle
        exact Nat.lt_of_lt_of_le (Nat.add_lt_add_left hj _) hle
      rw [afterBlocks_out h (Nat.le_succ n) hbelow]
      exact hout i j hlt hj
    · rw [hnext]
      exact hmessage j hj

/-! ## What is passed on -/

/-- The locator of block `i`, if one is looked for, has an order the power table covers. -/
def Covered (d : RSDecoder) (input block : Nat → UInt8) (i : Nat) : Prop :=
  (d.afterBlocks input block i).rs.allZero (d.afterBlocks input block (i + 1)).block 255 = false →
    ((d.afterBlocks input block i).rs.located
      (d.afterBlocks input block (i + 1)).block 255).errorLocator.order ≤ 31

/-- So it has when the blocks are near code words. -/
theorem covered_of_few (h : ReedSolomon.Reachable d.rs) {words : Nat → Nat → UInt8}
    (hwords : ∀ i, i < 4 → Codeword (words i))
    (hfew : ∀ i, i < 4 → (errorSet (fun k => scramble input (i + 4 * k)) (words i)).card ≤ 16)
    {i : Nat} (hi : i < 4) : d.Covered input block i := by
  intro _
  obtain ⟨hfailed, -⟩ := @decodes_blocks d input block h words hwords hfew i (by omega)
  have hset := errorSet_afterBlocks hi hfailed (words i)
  have hcard := hfew i hi
  rw [← hset] at hcard
  obtain ⟨-, horder⟩ :=
    located_eq_locator (afterBlocks_rs h input block i).usable (hwords i hi) hcard
  omega

/-- A call that succeeds has corrected its block to the code word of the message it returns,
    and a frame that is passed on consists of the messages of four such words. -/
theorem passes_codewords :
    (∀ rs, ReedSolomon.Reachable rs → ∀ (block msg : Nat → UInt8) (at_ : Nat),
      (rs.allZero block 255 = false → (rs.located block 255).errorLocator.order ≤ 31) →
      (rs.decode block 255 msg at_).2.1 = some 223 →
      CorrectedTo (rs.decode block 255 msg at_).1 fun j =>
        (rs.decode block 255 msg at_).2.2 (at_ + j)) ∧
    (∀ d, Reachable d → ∀ (input block : Nat → UInt8) (count n : Nat) (d' : RSDecoder),
      d.decode input count block = some (d', n) → n ≠ 0 →
      (∀ i, i < RS_BLOCK_COUNT → d.Covered input block i) →
      ∀ i, i < RS_BLOCK_COUNT → CorrectedTo (d.afterBlocks input block (i + 1)).rs fun j =>
        d'.writeBuf (i * RS_BLOCK_DEC_SIZE + j)) := by
  refine ⟨fun rs h block msg at_ horder hresult => ?_, fun d h input block count n d' hd hn
    hcovered i hi => ?_⟩
  · exact correctedTo_decode h.usable horder msg at_ (by rw [hresult]; simp) fun _ _ => rfl
  · obtain ⟨-, rfl, rfl⟩ := decode_eq_some hd
    have hfailed : (d.afterBlocks input block RS_BLOCK_COUNT).failed = false := by
      by_contra hfailed
      exact hn (if_pos (by simpa using hfailed))
    have hrs := reachable_rs h
    have husable := (afterBlocks_rs hrs input block i).usable
    have hsucc := not_failed_of_le hi hfailed
    obtain ⟨hrs', hout, hresult⟩ := afterBlocks_block (not_failed_of_succ hsucc)
    rw [hsucc] at hresult
    rw [hrs']
    refine correctedTo_decode husable (hcovered i hi) _ _ (fun hnone => ?_) fun j hj => ?_
    · rw [hnone] at hresult
      exact Bool.false_ne_true hresult
    · have hlt : i * RS_BLOCK_DEC_SIZE + j < (i + 1) * RS_BLOCK_DEC_SIZE := by
        rw [Nat.succ_mul]
        exact Nat.add_lt_add_left hj _
      simp only
      rw [afterBlocks_out hrs hi hlt, hout]

/-- A zero word with an error in its first byte. -/
def firstByte (k : Nat) : UInt8 := if k = 0 then 1 else 0

theorem card_errorSet_firstByte : (errorSet firstByte fun _ => 0).card ≤ 16 := by
  have hsub : errorSet firstByte (fun _ => 0) ⊆ {0} := fun k hk => by
    have hne := (mem_errorSet.mp hk).2
    rw [firstByte] at hne
    exact Finset.mem_singleton.mpr (of_not_not fun h => hne (if_neg h))
  exact (Finset.card_le_card hsub).trans (by simp)

/-- Four such words, as the frame that is received. -/
def fourErrors (j : Nat) : UInt8 := firstByte (j / 4) ^^^ RS_SCRAMBLER_SEQ.getD j 0

theorem scramble_fourErrors {i k : Nat} (hi : i < 4) (hk : k < 255) :
    scramble fourErrors (i + 4 * k) = firstByte k := by
  rw [scramble_apply _ (by omega), fourErrors, UInt8.xor_assoc, UInt8.xor_self, UInt8.xor_zero,
    show (i + 4 * k) / 4 = k by omega]

/-- One such word, and four of them, in a new decoder. -/
theorem passes_codewords_fourErrors :
    CorrectedTo ((createRs default).decode firstByte 255 (fun _ => 7) 0).1 (fun j =>
      ((createRs default).decode firstByte 255 (fun _ => 7) 0).2.2 (0 + j)) ∧
    ∃ d', (init default (fun _ => 0) fun _ => 0).decode fourErrors 1020 (fun _ => 0) =
        some (d', 892) ∧
      ∀ i, i < RS_BLOCK_COUNT → CorrectedTo ((init default (fun _ => 0) fun _ => 0).afterBlocks
        fourErrors (fun _ => 0) (i + 1)).rs fun j => d'.writeBuf (i * RS_BLOCK_DEC_SIZE + j) := by
  have hfew : ∀ i, i < 4 →
      (errorSet (fun k => scramble fourErrors (i + 4 * k)) fun _ => 0).card ≤ 16 := fun i hi => by
    have hset : errorSet (fun k => scramble fourErrors (i + 4 * k)) (fun _ => 0) =
        errorSet firstByte fun _ => 0 := Finset.filter_congr fun k hk => by
      simp only [scramble_fourErrors hi (Finset.mem_range.mp hk)]
    rw [hset]
    exact card_errorSet_firstByte
  refine ⟨?_, ?_⟩
  · have hrs : ReedSolomon.Reachable (createRs default) := .create default
    -- the instance is not computed
    generalize createRs default = rs at hrs
    refine passes_codewords.1 rs hrs _ _ 0 (fun _ => ?_)
      (decode_few_errors hrs.usable codeword_zero card_errorSet_firstByte _ _).1
    have horder := (located_eq_locator hrs.usable codeword_zero card_errorSet_firstByte).2
    have hcard := card_errorSet_firstByte
    omega
  · have hrs : ReedSolomon.Reachable (init default (fun _ => 0) fun _ => 0).rs := .create default
    obtain ⟨hfailed, -⟩ := @decodes_blocks (init default (fun _ => 0) fun _ => 0) fourErrors
      (fun _ => 0) hrs (fun _ _ => 0) (fun _ _ => codeword_zero) hfew RS_BLOCK_COUNT (Nat.le_refl 4)
    have hdecode := decode_frame (init default (fun _ => 0) fun _ => 0) fourErrors fun _ => 0
    rw [if_neg (by simp [hfailed])] at hdecode
    refine ⟨_, hdecode, ?_⟩
    exact passes_codewords.2 _ (.init default _ _) _ _ _ _ _ hdecode (by decide)
      fun i hi => covered_of_few hrs (fun _ _ => codeword_zero) hfew hi

end RSDecoder

end RyFi.Modem
