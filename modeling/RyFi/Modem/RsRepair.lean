import RyFi.Modem.RsFrames

/-! # Errors in a frame

The interleaver spreads the bytes of a frame over four code words, so that a frame with at
most 16 errors in each of them is decoded (`repairs_frame`); a burst of 64 bytes has 16 in
each.
-/

namespace RyFi.Modem

open CLoop RyFi.Rs RyFi.Rs.ReedSolomon

/-! ## The encoder -/

namespace RSEncoder

variable {e : RSEncoder} {x out block : Nat → UInt8}

/-- The variables of `encode` after `i` blocks. -/
def afterBlocks (e : RSEncoder) (x out block : Nat → UInt8) (i : Nat) : Encoding :=
  forLoop 0 i (encodeBlock x) ⟨e.rs, block, out⟩

theorem afterBlocks_succ (e : RSEncoder) (x out block : Nat → UInt8) (i : Nat) :
    e.afterBlocks x out block (i + 1) = encodeBlock x i (e.afterBlocks x out block i) :=
  forLoop_succ (Nat.zero_le i) _ _

theorem afterBlocks_rs (h : ReedSolomon.Reachable e.rs) (x out block : Nat → UInt8) (i : Nat) :
    ReedSolomon.Reachable (e.afterBlocks x out block i).rs :=
  forLoop_induct (fun _ (s : Encoding) => ReedSolomon.Reachable s.rs) (Nat.zero_le i) h
    fun _ _ _ _ hs => .encode hs _ _ _

theorem encode_eq_some {e' : RSEncoder} {out' : Nat → UInt8} {count count' : Nat}
    (h : e.encode x out count block = some (e', out', count')) :
    count = RS_BLOCK_COUNT * RS_BLOCK_DEC_SIZE ∧
      e' = ⟨(e.afterBlocks x out block RS_BLOCK_COUNT).rs⟩ ∧
      out' = scramble (e.afterBlocks x out block RS_BLOCK_COUNT).out ∧
      count' = RS_BLOCK_COUNT * RS_BLOCK_ENC_SIZE := by
  rw [encode] at h
  split at h
  next hcount =>
    simp only [Option.some.injEq, Prod.mk.injEq] at h
    obtain ⟨rfl, rfl, rfl⟩ := h
    exact ⟨hcount, rfl, rfl, rfl⟩
  next => exact absurd h (by simp)

theorem encode_frame (e : RSEncoder) (x out block : Nat → UInt8) :
    e.encode x out (RS_BLOCK_COUNT * RS_BLOCK_DEC_SIZE) block =
      some (⟨(e.afterBlocks x out block RS_BLOCK_COUNT).rs⟩,
        scramble (e.afterBlocks x out block RS_BLOCK_COUNT).out,
        RS_BLOCK_COUNT * RS_BLOCK_ENC_SIZE) := if_pos rfl

/-- The instance is only used through the calls of the library. -/
theorem reachable_rs (h : Reachable e) : ReedSolomon.Reachable e.rs := by
  induction h with
  | init raw => exact .create raw
  | encode _ he ih =>
    obtain ⟨-, rfl, -⟩ := encode_eq_some he
    exact afterBlocks_rs ih _ _ _ RS_BLOCK_COUNT

/-- The word of block `i`. -/
def word (e : RSEncoder) (x out block : Nat → UInt8) (i : Nat) : Nat → UInt8 :=
  (e.afterBlocks x out block (i + 1)).block

theorem word_eq (e : RSEncoder) (x out block : Nat → UInt8) (i : Nat) :
    e.word x out block i = ((e.afterBlocks x out block i).rs.encode
      (fun j => x (i * RS_BLOCK_DEC_SIZE + j)) RS_BLOCK_DEC_SIZE
      (e.afterBlocks x out block i).block).2.2 := by
  rw [word, afterBlocks_succ]
  rfl

theorem codeword_word (h : ReedSolomon.Reachable e.rs) (x out block : Nat → UInt8) (i : Nat) :
    Codeword (e.word x out block i) := by
  rw [word_eq]
  exact codeword_encode (afterBlocks_rs h x out block i).usable _ _

theorem word_message (h : ReedSolomon.Reachable e.rs) (x out block : Nat → UInt8) (i : Nat)
    {j : Nat} (hj : j < 223) : e.word x out block i j = x (i * RS_BLOCK_DEC_SIZE + j) := by
  rw [word_eq]
  exact encode_message (afterBlocks_rs h x out block i).usable _ _ hj

/-- The bytes of the words before the scrambler. -/
theorem afterBlocks_out (e : RSEncoder) (x out block : Nat → UInt8) {n : Nat} (hn : n ≤ 4)
    {i k : Nat} (hi : i < n) (hk : k < 255) :
    (e.afterBlocks x out block n).out (i + 4 * k) = e.word x out block i k := by
  induction n with
  | zero => exact absurd hi (Nat.not_lt_zero i)
  | succ n ih =>
    have hlen : interleaveLen n (RS_BLOCK_ENC_SIZE * RS_BLOCK_COUNT) = 255 :=
      interleaveLen_frame hn
    rw [afterBlocks_succ, encodeBlock]
    simp only
    rw [hlen]
    rcases Nat.lt_succ_iff_lt_or_eq.mp hi with hlt | rfl
    · rw [forLoop_store_other (p := fun k => n + RS_BLOCK_COUNT * k)]
      · exact ih (by omega) hlt
      · intro m _ heq
        simp only [RS_BLOCK_COUNT] at heq
        omega
    · rw [word_eq]
      exact forLoop_store (p := fun k => i + RS_BLOCK_COUNT * k)
        (fun k m _ _ heq => by simp only [RS_BLOCK_COUNT] at heq; omega) _ _ hk

end RSEncoder

/-! ## Errors -/

/-- The errors of a frame that fall on code word `i`. -/
def errorsIn (errors : Nat → UInt8) (i : Nat) : Finset Nat :=
  (Finset.range (RS_BLOCK_COUNT * RS_BLOCK_ENC_SIZE)).filter fun j =>
    j % RS_BLOCK_COUNT = i ∧ errors j ≠ 0

/-- The decoder outputs the frame that was encoded. -/
def Repairs (e : RSEncoder) (d : RSDecoder) (x out block block' errors : Nat → UInt8) : Prop :=
  ∃ e' y d', e.encode x out (RS_BLOCK_COUNT * RS_BLOCK_DEC_SIZE) block =
      some (e', y, RS_BLOCK_COUNT * RS_BLOCK_ENC_SIZE) ∧
    d.decode (fun j => y j ^^^ errors j) (RS_BLOCK_COUNT * RS_BLOCK_ENC_SIZE) block' =
      some (d', RS_BLOCK_COUNT * RS_BLOCK_DEC_SIZE) ∧
    ∀ j, j < RS_BLOCK_COUNT * RS_BLOCK_DEC_SIZE → d'.writeBuf j = x j

variable {e : RSEncoder} {d : RSDecoder} {x out block block' errors : Nat → UInt8}

theorem card_errorSet_le {i : Nat} (hi : i < 4) :
    (errorSet (fun k => scramble (fun j =>
        scramble (e.afterBlocks x out block RS_BLOCK_COUNT).out j ^^^ errors j) (i + 4 * k))
      (e.word x out block i)).card ≤ (errorsIn errors i).card := by
  refine Finset.card_le_card_of_injOn (fun k => i + 4 * k) (fun k hk => ?_) fun k _ m _ h => ?_
  · obtain ⟨hlt, hne⟩ := mem_errorSet.mp hk
    have hj : i + 4 * k < 1020 := by omega
    refine Finset.mem_coe.mpr (Finset.mem_filter.mpr ⟨Finset.mem_range.mpr hj, ?_, fun hzero => ?_⟩)
    · simp only [RS_BLOCK_COUNT]
      omega
    · have hword := RSEncoder.afterBlocks_out e x out block (Nat.le_refl 4) hi hlt
      rw [scramble_apply _ hj, scramble_apply _ hj, hzero, UInt8.xor_zero, UInt8.xor_assoc,
        UInt8.xor_self, UInt8.xor_zero] at hne
      exact hne hword
  · simp only at h
    omega

theorem repairs_of_few (he : e.Reachable) (hd : d.Reachable)
    (hfew : ∀ i, i < RS_BLOCK_COUNT → (errorsIn errors i).card ≤ 16) :
    Repairs e d x out block block' errors := by
  have hers := RSEncoder.reachable_rs he
  obtain ⟨hfailed, hout⟩ := @RSDecoder.decodes_blocks d
    (fun j => scramble (e.afterBlocks x out block RS_BLOCK_COUNT).out j ^^^ errors j) block'
    (RSDecoder.reachable_rs hd) (e.word x out block)
    (fun i _ => RSEncoder.codeword_word hers x out block i)
    (fun i hi => (card_errorSet_le hi).trans (hfew i hi)) RS_BLOCK_COUNT
    (Nat.le_refl RS_BLOCK_COUNT)
  have hdecode := RSDecoder.decode_frame d (fun j =>
    scramble (e.afterBlocks x out block RS_BLOCK_COUNT).out j ^^^ errors j) block'
  rw [if_neg (fun h => Bool.false_ne_true (hfailed.symm.trans h))] at hdecode
  refine ⟨_, _, _, RSEncoder.encode_frame e x out block, hdecode, fun j hj => ?_⟩
  · have hsplit : j = j / RS_BLOCK_DEC_SIZE * RS_BLOCK_DEC_SIZE + j % RS_BLOCK_DEC_SIZE := by
      rw [Nat.mul_comm, Nat.div_add_mod]
    have hdiv : j / RS_BLOCK_DEC_SIZE < 4 := Nat.div_lt_of_lt_mul hj
    have hmod : j % RS_BLOCK_DEC_SIZE < 223 := Nat.mod_lt j (by decide)
    have hbyte := hout (j / RS_BLOCK_DEC_SIZE) (j % RS_BLOCK_DEC_SIZE) hdiv hmod
    rw [RSEncoder.word_message hers x out block _ hmod, ← hsplit] at hbyte
    exact hbyte

/-- A burst has no more than a quarter of its length in each word. -/
theorem card_errorsIn_burst {start : Nat} (hburst : ∀ j, errors j ≠ 0 → start ≤ j ∧ j < start + 64)
    (i : Nat) : (errorsIn errors i).card ≤ 16 := by
  have hsub : errorsIn errors i ⊆ (Finset.range 16).image fun k =>
      start + 4 * k + (i + 4 - start % 4) % 4 := by
    intro j hj
    obtain ⟨-, hmod, hne⟩ := Finset.mem_filter.mp hj
    obtain ⟨hle, hlt⟩ := hburst j hne
    simp only [RS_BLOCK_COUNT] at hmod
    refine Finset.mem_image.mpr ⟨(j - start) / 4, Finset.mem_range.mpr (by omega), ?_⟩
    omega
  exact (Finset.card_le_card hsub).trans (Finset.card_image_le.trans (by rw [Finset.card_range]))

/-- Up to 16 errors in each of the interleaved words are corrected, and with them every burst of
    64 bytes. -/
theorem repairs_frame (he : e.Reachable) (hd : d.Reachable) (x out block block' : Nat → UInt8) :
    (∀ errors, (∀ i, i < RS_BLOCK_COUNT → (errorsIn errors i).card ≤ 16) →
      Repairs e d x out block block' errors) ∧
    (∀ errors start, (∀ j, errors j ≠ 0 → start ≤ j ∧ j < start + 64) →
      Repairs e d x out block block' errors) :=
  ⟨fun _ hfew => repairs_of_few he hd hfew,
    fun _ _ hburst => repairs_of_few he hd fun i _ => card_errorsIn_burst hburst i⟩

theorem repairs_first_burst :
    Repairs (RSEncoder.init default) (RSDecoder.init default (fun _ => 0) (fun _ => 0))
      (fun _ => 1) (fun _ => 0) (fun _ => 0) (fun _ => 0) (fun j => if j < 64 then 255 else 0) :=
  (repairs_frame (.init default) (.init default _ _) _ _ _ _).2 _ 0 fun j hne => by
    split at hne
    next hlt => exact ⟨Nat.zero_le j, by omega⟩
    next => exact absurd rfl hne

end RyFi.Modem
