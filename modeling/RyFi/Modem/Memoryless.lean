import RyFi.Modem.IdealChannel
import RyFi.Rs.Memoryless

/-! # Frames are decoded independently

A pair of decoders that has run over any blocks decodes the next one like a new pair: the
convolutional decoder because its message is a function of the soft values
(`conv_same`), the Reed-Solomon decoder block by block through `decode_same`.
-/

namespace RyFi.Modem

open CLoop RyFi.Conv RyFi.Rs

/-! ## Frames of the Reed-Solomon decoder -/

namespace RSDecoder

variable {d d' : RSDecoder} {input input' block block' : Nat → UInt8}

/-- Every locator that is looked for has an order the power table covers. -/
def CoveredFrame (d : RSDecoder) (input block : Nat → UInt8) : Prop :=
  ∀ i, i < RS_BLOCK_COUNT → (d.afterBlocks input block i).failed = false → d.Covered input block i

theorem failed_zero (d : RSDecoder) (input block : Nat → UInt8) :
    (d.afterBlocks input block 0).failed = false := rfl

theorem afterBlocks_stays {i : Nat} (h : (d.afterBlocks input block i).failed = true) :
    d.afterBlocks input block (i + 1) = d.afterBlocks input block i := by
  rw [afterBlocks_succ, decodeBlock, if_pos h]

/-- A frame of code words is covered. -/
theorem coveredFrame_of_codewords (h : ReedSolomon.Reachable d.rs) {words : Nat → Nat → UInt8}
    (hwords : ∀ i, i < 4 → Codeword (words i))
    (hinput : ∀ i k, i < 4 → k < 255 → scramble input (i + 4 * k) = words i k) :
    d.CoveredFrame input block := by
  have hfew : ∀ i, i < 4 → (errorSet (fun k => scramble input (i + 4 * k)) (words i)).card ≤ 16 := by
    intro i hi
    have hnone : errorSet (fun k => scramble input (i + 4 * k)) (words i) = ∅ :=
      Finset.filter_eq_empty_iff.mpr fun k hk => not_not.mpr (hinput i k hi (Finset.mem_range.mp hk))
    rw [hnone, Finset.card_empty]
    omega
  exact fun i hi _ => covered_of_few h hwords hfew hi

/-- Two decoders after the same blocks of a frame. -/
theorem afterBlocks_same (h : ReedSolomon.Reachable d.rs) (h' : ReedSolomon.Reachable d'.rs)
    (hinput : ∀ j, j < 1020 → input' j = input j) (hcovered : d.CoveredFrame input block) {n : Nat}
    (hn : n ≤ 4) :
    (d'.afterBlocks input' block' n).failed = (d.afterBlocks input block n).failed ∧
      ((d.afterBlocks input block n).failed = false → ∀ j, j < n * RS_BLOCK_DEC_SIZE →
        (d'.afterBlocks input' block' n).out j = (d.afterBlocks input block n).out j) := by
  induction n with
  | zero =>
    rw [failed_zero, failed_zero]
    exact ⟨rfl, fun _ j hj => absurd hj (by omega)⟩
  | succ n ih =>
    obtain ⟨hfailed, hout⟩ := ih (by omega)
    cases hstop : (d.afterBlocks input block n).failed with
    -- a block that fails stops both runs
    | true =>
      have hstop' := hfailed.trans hstop
      rw [afterBlocks_stays hstop, afterBlocks_stays hstop', hstop, hstop']
      exact ⟨rfl, fun hmore => by cases hmore⟩
    | false =>
      have hstop' := hfailed.trans hstop
      obtain ⟨-, hnext, hresult⟩ := afterBlocks_block hstop
      obtain ⟨-, hnext', hresult'⟩ := afterBlocks_block hstop'
      have hblock : ∀ k, k < 255 → (d'.afterBlocks input' block' (n + 1)).block k =
          (d.afterBlocks input block (n + 1)).block k := fun k hk => by
        rw [afterBlocks_deinterleave hn hk hstop, afterBlocks_deinterleave hn hk hstop',
          scramble_apply _ (by omega), scramble_apply _ (by omega), hinput _ (by omega)]
      obtain ⟨hsame, hmessage⟩ := ReedSolomon.decode_same (afterBlocks_rs h input block n).usable
        (afterBlocks_rs h' input' block' n).usable hblock (hcovered n hn hstop)
        (d.afterBlocks input block n).out (d'.afterBlocks input' block' n).out
        (n * RS_BLOCK_DEC_SIZE)
      refine ⟨by rw [hresult, hresult', hsame], fun hdone j hj => ?_⟩
      by_cases hlow : j < n * RS_BLOCK_DEC_SIZE
      · rw [afterBlocks_out h (Nat.le_succ n) hlow, afterBlocks_out h' (Nat.le_succ n) hlow]
        exact hout hstop j hlow
      · obtain ⟨i, rfl⟩ : ∃ i, j = n * RS_BLOCK_DEC_SIZE + i :=
          ⟨j - n * RS_BLOCK_DEC_SIZE, by omega⟩
        rw [Nat.succ_mul] at hj
        rw [hresult] at hdone
        rw [hnext, hnext']
        refine hmessage (fun hnone => ?_) i (Nat.lt_of_add_lt_add_left hj)
        rw [hnone] at hdone
        cases hdone

/-- Two decoders send the same for a frame. -/
theorem run_same (h : d.Reachable) (h' : d'.Reachable)
    (hinput : ∀ j, j < 1020 → input' j = input j) (hcovered : d.CoveredFrame input block) :
    ∃ e e' sent,
      d.run input (RS_BLOCK_COUNT * RS_BLOCK_ENC_SIZE) block = some (e, sent) ∧
      d'.run input' (RS_BLOCK_COUNT * RS_BLOCK_ENC_SIZE) block' = some (e', sent) := by
  obtain ⟨hfailed, hout⟩ := @afterBlocks_same d d' input input' block block' (reachable_rs h)
    (reachable_rs h') hinput hcovered RS_BLOCK_COUNT (Nat.le_refl 4)
  rw [run_frame, run_frame]
  simp only [hfailed]
  cases hstop : (d.afterBlocks input block RS_BLOCK_COUNT).failed with
  | true => exact ⟨_, _, none, rfl, rfl⟩
  | false =>
    have hlist : (List.range (RS_BLOCK_COUNT * RS_BLOCK_DEC_SIZE)).map
        (d'.afterBlocks input' block' RS_BLOCK_COUNT).out =
        (List.range (RS_BLOCK_COUNT * RS_BLOCK_DEC_SIZE)).map
          (d.afterBlocks input block RS_BLOCK_COUNT).out :=
      List.map_congr_left fun j hj => hout hstop j (List.mem_range.mp hj)
    rw [hlist]
    exact ⟨_, _, some _, rfl, rfl⟩

end RSDecoder

/-! ## Blocks of the convolutional decoder -/

namespace FecDecoder

variable {F : Type} [SampleType F] {d d' : FecDecoder} {block : List (ComplexT F)}

/-- Every locator that is looked for in a block has an order the power table covers. -/
def Covered (neon : Bool) (d : FecDecoder) (block : List (ComplexT F)) (memory : Nat → UInt8) :
    Prop :=
  ∀ conv count, d.conv.decode neon (fun i => block.getD i ⟨0, 0⟩) block.length =
    some (conv, count) → d.rs.CoveredFrame conv.writeBuf memory

/-- Two decoders send the same for a block. -/
theorem step_same (h : Proper d) (h' : Proper d') (neon : Bool) (hblock : block.length = FRAME_SYMS)
    {memory : Nat → UInt8} (memory' : Nat → UInt8) (hcovered : d.Covered neon block memory) :
    ∃ e e' sent, d.step neon block memory = some (e, sent) ∧
      d'.step neon block memory' = some (e', sent) := by
  obtain ⟨conv, hdecode, hwrite, hholds, hstep⟩ := step_block h neon hblock memory
  obtain ⟨conv', -, hwrite', hholds', hstep'⟩ := step_block h' neon hblock memory'
  have hsoft : ∀ k, k < 2 * 8168 →
      d'.conv.fillSoft (fun i => block.getD i ⟨0, 0⟩) (FRAME_SYMS * 2) k =
        d.conv.fillSoft (fun i => block.getD i ⟨0, 0⟩) (FRAME_SYMS * 2) k := fun k hk => by
    have hlt : k < FRAME_SYMS * 2 := hk
    rw [ConvDecoder.fillSoft_apply _ _ hlt, ConvDecoder.fillSoft_apply _ _ hlt]
  rw [decodedBits_congr hsoft] at hholds'
  have hbytes : ∀ j, j < 1020 → conv'.writeBuf j = conv.writeBuf j := fun j hj => by
    rw [hwrite, hwrite']
    refine BitWriter.bytes_of_holds hholds' hholds ?_
    rw [decodedBits, List.length_map, List.length_range]
    exact hj
  obtain ⟨rs, rs', sent, hrun, hrun'⟩ :=
    @RSDecoder.run_same d.rs d'.rs conv.writeBuf conv'.writeBuf memory memory' h.rs h'.rs hbytes
      (hcovered conv 1020 hdecode)
  rw [hstep, hstep', hrun, hrun']
  exact ⟨_, _, sent, rfl, rfl⟩

/-- A new pair of decoders, in any memory. -/
def New (d : FecDecoder) : Prop :=
  ∃ conv rs soft convWrite convRead rsWrite rsRead,
    d = init conv rs soft convWrite convRead rsWrite rsRead

theorem New.proper (h : New d) : Proper d := by
  obtain ⟨conv, rs, soft, convWrite, convRead, rsWrite, rsRead, rfl⟩ := h
  exact ⟨.create (create_createConv conv), .init rs rsWrite rsRead⟩

end FecDecoder

/-- A block, and a new pair of decoders for it alone. -/
structure Job (F : Type) [SampleType F] where
  block : List (ComplexT F)
  length_eq : block.length = FRAME_SYMS
  fresh : FecDecoder
  fresh_new : fresh.New
  /-- The uninitialized memory of the two calls. -/
  memory : Nat → UInt8
  freshMemory : Nat → UInt8

namespace FecDecoder

variable {F : Type} [SampleType F] {d : FecDecoder}

/-- The decoders are memoryless: what they send for a sequence of blocks is what new decoders
    send for each of them. -/
theorem memoryless (h : Reachable F d) (neon : Bool) (jobs : List (Job F))
    (hcovered : ∀ job ∈ jobs, job.fresh.Covered neon job.block job.freshMemory) :
    ∃ d' frames, d.run neon (jobs.map fun job => (job.block, job.memory)) =
        some (d', frames.flatten) ∧
      List.Forall₂ (fun job sent =>
        ∃ e, job.fresh.run neon [(job.block, job.freshMemory)] = some (e, sent)) jobs frames := by
  have hproper := proper_reachable h
  clear h
  induction jobs generalizing d with
  | nil => exact ⟨d, [], rfl, .nil⟩
  | cons job jobs ih =>
    obtain ⟨e, d₁, sent, hfresh, hstep⟩ := step_same job.fresh_new.proper hproper neon
      job.length_eq job.memory (hcovered job List.mem_cons_self)
    obtain ⟨d', frames, hrun, hall⟩ :=
      ih (fun job hjob => hcovered job (List.mem_cons_of_mem _ hjob)) (proper_step hproper hstep)
    refine ⟨d', sent.toList :: frames, ?_, .cons ⟨e, ?_⟩ hall⟩
    · simp only [List.map_cons, run, hstep, hrun, List.flatten_cons]
    · simp only [run, hfresh, List.append_nil]

/-- Four encoded code words are covered. -/
theorem covered_dataSyms (hexact : ExactSamples F) (h : Proper d) {enc : Convolutional}
    (henc : Convolutional.Configured 2 7 r12_7_polynomial enc) {msg : Nat → UInt8}
    {words : Nat → Nat → UInt8} (hwords : ∀ i, i < 4 → Codeword (words i))
    (hmsg : ∀ i k, i < 4 → k < 255 → scramble msg (i + 4 * k) = words i k) (out : Nat → UInt8)
    (neon : Bool) (memory : Nat → UInt8) :
    d.Covered neon (dataSyms (enc.encode msg 1020 out).1 : List (ComplexT F)) memory := by
  intro conv count hconv
  obtain ⟨conv', hbytes, hdecode, -⟩ := conv_returns hexact h henc msg out neon memory
  rw [show (dataSyms (enc.encode msg 1020 out).1 : List (ComplexT F)).length = FRAME_SYMS by
    rw [dataSyms, List.length_map, List.length_range], hdecode] at hconv
  obtain ⟨rfl, -⟩ := Prod.mk.inj (Option.some.inj hconv)
  refine RSDecoder.coveredFrame_of_codewords (RSDecoder.reachable_rs h.rs) hwords
    fun i k hi hk => ?_
  rw [← hmsg i k hi hk, scramble_apply _ (by omega), scramble_apply _ (by omega),
    hbytes _ (by omega)]

/-- The samples of the frame that the scrambler turns into zeros. -/
def zeroFrame : List (ComplexT Rat) :=
  dataSyms (Convolutional.fresh.encode (fun j => RS_SCRAMBLER_SEQ.getD j 0) 1020 (fun _ => 0)).1

def zeroJob : Job Rat where
  block := zeroFrame
  length_eq := by rw [zeroFrame, dataSyms, List.length_map, List.length_range]
  fresh := init Convolutional.zeroed default (fun _ => 0) (fun _ => 0) (fun _ => 0) (fun _ => 0)
    (fun _ => 0)
  fresh_new := ⟨_, _, _, _, _, _, _, rfl⟩
  memory := fun _ => 0
  freshMemory := fun _ => 1

theorem zeroJob_block : zeroJob.block = zeroFrame := by
  rw [zeroJob]

theorem covered_zeroJob (neon : Bool) :
    zeroJob.fresh.Covered neon zeroJob.block zeroJob.freshMemory := by
  rw [zeroJob_block, zeroFrame]
  exact covered_dataSyms exactSamples_rat zeroJob.fresh_new.proper
    (Convolutional.configured_create Convolutional.create_fresh) (fun _ _ => codeword_zero)
    (fun i k hi hk => by rw [scramble_apply _ (by omega), UInt8.xor_self]) _ neon _

/-- The same frame twice. -/
theorem memoryless_zeroFrame :
    ∃ d' frames, zeroJob.fresh.run false
        ((List.replicate 2 zeroJob).map fun job => (job.block, job.memory)) =
        some (d', List.flatten frames) ∧
      List.Forall₂ (fun job sent =>
        ∃ e, job.fresh.run false [(job.block, job.freshMemory)] = some (e, sent))
        (List.replicate 2 zeroJob) frames :=
  memoryless (.init _ _ _ _ _ _ _) false (List.replicate 2 zeroJob) fun job hjob => by
    rw [List.eq_of_mem_replicate hjob]
    exact covered_zeroJob false

end FecDecoder

end RyFi.Modem
