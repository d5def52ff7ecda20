import RyFi.Modem.ConvCodec
import RyFi.Modem.Alignment

/-! # Block sizes of the receive chain

The deframer counts a block down from `FRAME_SYMS`, the convolutional decoder writes one bit
for every symbol after the warmup, and the Reed-Solomon decoder asserts the number of bytes
that makes.  `step_block` is what the two decoders do with a block, whatever is in it.
-/

namespace RyFi.Modem

open CLoop RyFi.Conv RyFi.Rs

/-! ## Blocks of the deframer -/

namespace Deframer

variable {F : Type} [SampleType F] {d : Deframer F}

/-- The symbols stored and the symbols to come are those of a frame. -/
def Sized (d : Deframer F) : Prop := d.recv ≠ 0 → d.outCount + d.recv = FRAME_SYMS

theorem sized_search (h : d.recv = 0) : Sized (forLoop 0 4 (fun i d => d.testRot i) d) := by
  refine forLoop_induct (fun _ (d : Deframer F) => Sized d) (by omega)
    (fun hne => absurd h hne) fun i d _ _ hd => ?_
  rw [testRot_eq]
  split
  · exact fun _ => Nat.zero_add FRAME_SYMS
  · exact hd

theorem sized_step (h : Sized d) (sym : ComplexT F) :
    Sized (d.step sym).1 ∧ ∀ block ∈ (d.step sym).2, block.length = FRAME_SYMS := by
  by_cases hrecv : d.recv = 0
  · simp only [step, hrecv, ne_eq, not_true_eq_false, if_false]
    exact ⟨sized_search rfl, fun block hblock => by cases hblock⟩
  · have hsize := h hrecv
    by_cases hlast : d.recv - 1 = 0
    · simp only [step, ne_eq, hrecv, not_false_eq_true, if_true, hlast]
      refine ⟨fun hne => absurd rfl hne, fun block hblock => ?_⟩
      obtain rfl := Option.some.inj hblock
      rw [List.length_map, List.length_range]
      omega
    · simp only [step, ne_eq, hrecv, not_false_eq_true, if_true, hlast, if_false]
      refine ⟨fun _ => ?_, fun block hblock => by cases hblock⟩
      change d.outCount + 1 + (d.recv - 1) = FRAME_SYMS
      omega

theorem sized_run (h : Sized d) (input : List (ComplexT F)) :
    Sized (d.run input).1 ∧ ∀ block ∈ (d.run input).2, block.length = FRAME_SYMS := by
  induction input using List.reverseRecOn with
  | nil => exact ⟨h, fun block hblock => by cases hblock⟩
  | append_singleton input sym ih =>
    obtain ⟨hsized, hblocks⟩ := ih
    obtain ⟨hstep, hlast⟩ := sized_step hsized sym
    rw [run_snoc]
    refine ⟨hstep, fun block hblock => ?_⟩
    obtain hold | hnew := List.mem_append.mp hblock
    · exact hblocks block hold
    · exact hlast block (Option.mem_toList.mp hnew)

theorem sized_runBuffers (h : Sized d) (inputs : List (List (ComplexT F))) :
    Sized (d.runBuffers inputs).1 ∧
      ∀ block ∈ (d.runBuffers inputs).2, block.length = FRAME_SYMS := by
  rw [runBuffers_eq]
  exact sized_run h _

theorem sized_reachable (h : Reachable d) : Sized d := by
  obtain ⟨symRot, shift, writeBuf, readBuf, inputs, rfl⟩ := h
  exact (sized_runBuffers (fun hne => absurd rfl hne) inputs).1

end Deframer

/-! ## Frames of the Reed-Solomon decoder -/

namespace RSDecoder

/-- The decoder once the write buffer is handed over or kept. -/
theorem run_frame (d : RSDecoder) (input block : Nat → UInt8) :
    d.run input (RS_BLOCK_COUNT * RS_BLOCK_ENC_SIZE) block =
      let s := d.afterBlocks input block RS_BLOCK_COUNT
      if s.failed then some ({ d with rs := s.rs, writeBuf := s.out }, none)
      else some ({ d with rs := s.rs, writeBuf := d.readBuf, readBuf := s.out },
        some ((List.range (RS_BLOCK_COUNT * RS_BLOCK_DEC_SIZE)).map s.out)) := by
  rw [run, decode_frame]
  by_cases hfailed : (d.afterBlocks input block RS_BLOCK_COUNT).failed = true
  · simp only [hfailed, if_true]
  · simp only [hfailed, if_false, Bool.false_eq_true]
    rfl

end RSDecoder

/-! ## Both decoders -/

namespace ConvDecoder

variable {F : Type} [SampleType F] {d : ConvDecoder}

theorem fillSoft_apply (d : ConvDecoder) (input : Nat → ComplexT F) {count k : Nat}
    (hk : k < count) : d.fillSoft input count k = quantize (component input k) := by
  rw [fillSoft, forLoop_update, if_pos ⟨Nat.zero_le k, hk⟩]

/-- A block of symbols becomes the bytes of a frame; the rest of the buffer is kept. -/
theorem decode_block (h : Convolutional.Used 2 7 r12_7_polynomial d.conv) (neon : Bool)
    (input : Nat → ComplexT F) :
    ∃ conv', d.decode neon input FRAME_SYMS =
        some ({ d with conv := conv', soft := d.fillSoft input (FRAME_SYMS * 2)
                       writeBuf := conv'.bitWriter.bytes }, 1020) ∧
      BitWriter.Holds d.writeBuf (decodedBits (d.fillSoft input (FRAME_SYMS * 2)) 8168 8162)
        conv'.bitWriter ∧
      Convolutional.Used 2 7 r12_7_polynomial conv' := by
  obtain ⟨conv', hdone, hholds, -⟩ := Convolutional.decodeSoft_code (Convolutional.ready_used h)
    neon (d.fillSoft input (FRAME_SYMS * 2)) d.writeBuf (show 12 ≤ 8168 by omega) (by omega)
  refine ⟨conv', ?_, hholds, .decodeSoft h hdone⟩
  simp only [decode, show FRAME_SYMS * 2 = 2 * 8168 from rfl] at hdone ⊢
  rw [hdone]
  rfl

end ConvDecoder

namespace FecDecoder

variable {F : Type} [SampleType F] {d d' : FecDecoder}

/-- The instances inside are only used through the calls of the libraries. -/
structure Proper (d : FecDecoder) : Prop where
  conv : Convolutional.Used 2 7 r12_7_polynomial d.conv.conv
  rs : RSDecoder.Reachable d.rs

theorem proper_step {neon : Bool} {block : List (ComplexT F)} {memory : Nat → UInt8}
    {sent : Option (List UInt8)} (h : Proper d)
    (hd : d.step neon block memory = some (d', sent)) : Proper d' := by
  rw [step] at hd
  split at hd
  next => cases hd
  next conv count hconv =>
    split at hd
    next => cases hd
    next hcount =>
      split at hd
      next => cases hd
      next rs sent' hrs =>
        obtain ⟨rfl, -⟩ := Prod.mk.inj (Option.some.inj hd)
        refine ⟨?_, .run h.rs hrs⟩
        -- only a decode that ends changes the instance
        simp only [ConvDecoder.run, ConvDecoder.decode] at hconv
        split at hconv
        next => cases hconv
        next conv₁ count₁ hdecode =>
          obtain ⟨rfl, -⟩ := Prod.mk.inj (Option.some.inj hconv)
          split at hdecode
          next hdone =>
            obtain ⟨rfl, -⟩ := Prod.mk.inj (Option.some.inj hdecode)
            exact .decodeSoft h.conv hdone
          next =>
            obtain ⟨rfl, -⟩ := Prod.mk.inj (Option.some.inj hdecode)
            exact h.conv
          next => cases hdecode

theorem proper_reachable (h : Reachable F d) : Proper d := by
  induction h with
  | init conv rs soft convWrite convRead rsWrite rsRead =>
    exact ⟨.create (create_createConv conv), .init rs rsWrite rsRead⟩
  | step h hd ih => exact proper_step ih hd

/-- A block through both decoders: the bytes of the message, then the frame in them. -/
theorem step_block (h : Proper d) (neon : Bool) {block : List (ComplexT F)}
    (hblock : block.length = FRAME_SYMS) (memory : Nat → UInt8) :
    ∃ conv', d.conv.decode neon (fun i => block.getD i ⟨0, 0⟩) block.length =
        some (conv', 1020) ∧
      conv'.writeBuf = conv'.conv.bitWriter.bytes ∧
      BitWriter.Holds d.conv.writeBuf
        (decodedBits (d.conv.fillSoft (fun i => block.getD i ⟨0, 0⟩) (FRAME_SYMS * 2)) 8168 8162)
        conv'.conv.bitWriter ∧
      d.step neon block memory =
        (d.rs.run conv'.writeBuf (RS_BLOCK_COUNT * RS_BLOCK_ENC_SIZE) memory).map fun r =>
          (⟨{ conv' with writeBuf := conv'.readBuf, readBuf := scramble conv'.writeBuf }, r.1⟩,
            r.2) := by
  obtain ⟨conv', hdecode, hholds, -⟩ :=
    ConvDecoder.decode_block h.conv neon fun i => block.getD i ⟨0, 0⟩
  rw [← hblock] at hdecode
  refine ⟨_, hdecode, rfl, hholds, ?_⟩
  simp only [step, ConvDecoder.run, hdecode]
  rw [if_neg (by omega), show ((1020 : Int).toNat) = RS_BLOCK_COUNT * RS_BLOCK_ENC_SIZE from rfl]
  cases d.rs.run conv'.bitWriter.bytes (RS_BLOCK_COUNT * RS_BLOCK_ENC_SIZE) memory with
  | none => rfl
  | some r => rfl

/-- The assertion holds, and what is sent is a whole frame. -/
theorem step_sends (h : Proper d) (neon : Bool) {block : List (ComplexT F)}
    (hblock : block.length = FRAME_SYMS) (memory : Nat → UInt8) :
    ∃ d' sent, d.step neon block memory = some (d', sent) ∧ ∀ frame ∈ sent, frame.length = 892 := by
  obtain ⟨conv', -, -, -, hstep⟩ := step_block h neon hblock memory
  rw [hstep, RSDecoder.run_frame]
  simp only
  split
  · exact ⟨_, _, rfl, fun frame hframe => by cases hframe⟩
  · refine ⟨_, _, rfl, fun frame hframe => ?_⟩
    obtain rfl := Option.some.inj hframe
    rw [List.length_map, List.length_range]
    rfl

/-- Any stream of blocks of a frame goes through. -/
theorem run_sends (neon : Bool) (blocks : List (List (ComplexT F) × (Nat → UInt8)))
    (hblocks : ∀ b ∈ blocks, b.1.length = FRAME_SYMS) (h : Proper d) :
    ∃ d' frames, d.run neon blocks = some (d', frames) ∧ ∀ frame ∈ frames, frame.length = 892 := by
  induction blocks generalizing d with
  | nil => exact ⟨d, [], rfl, fun frame hframe => by cases hframe⟩
  | cons b blocks ih =>
    obtain ⟨block, memory⟩ := b
    obtain ⟨d₁, sent, hstep, hsent⟩ := step_sends h neon (hblocks _ List.mem_cons_self) memory
    obtain ⟨d', frames, hrun, hframes⟩ :=
      ih (fun b hb => hblocks b (List.mem_cons_of_mem _ hb)) (proper_step h hstep)
    refine ⟨d', sent.toList ++ frames, ?_, fun frame hframe => ?_⟩
    · simp only [run, hstep, hrun]
    · obtain hfirst | hrest := List.mem_append.mp hframe
      · exact hsent frame (Option.mem_toList.mp hfirst)
      · exact hframes frame hrest

end FecDecoder

namespace FecEncoder

theorem proper_reachable {F : Type} [SampleType F] {e : FecEncoder} (h : Reachable F e) :
    e.rs.Reachable ∧ Convolutional.Configured 2 7 r12_7_polynomial e.conv.conv := by
  induction h with
  | init rs conv => exact ⟨.init rs, Convolutional.configured_create (create_createConv conv)⟩
  | step _ he ih =>
    rw [step] at he
    split at he
    next => cases he
    next rs bytes count hrs =>
      obtain ⟨rfl, -⟩ := Prod.mk.inj (Option.some.inj he)
      exact ⟨.encode ih.1 hrs, ih.2⟩

end FecEncoder

/-! ## The chain -/

/-- Every block of the deframer has 8168 symbols, every such block becomes 1020 bytes, the
    assertion of the Reed-Solomon decoder holds, and whole frames are sent.  A decode of any
    number of symbol pairs writes the right number of bits as long as the number fits the
    32-bit parameter of the phases. -/
theorem block_sizes_iff {F : Type} [SampleType F] :
    (∀ d : Deframer F, d.Reachable → ∀ inputs : List (List (ComplexT F)),
      (∀ block ∈ (d.runBuffers inputs).2, block.length = 8168 ∧
        ∀ f, FecDecoder.Reachable F f → ∀ neon memory,
          ∃ conv bits f' sent,
            f.conv.decode neon (fun i => block.getD i ⟨0, 0⟩) block.length = some (conv, 1020) ∧
            conv.writeBuf = conv.conv.bitWriter.bytes ∧
            BitWriter.Holds f.conv.writeBuf bits conv.conv.bitWriter ∧ bits.length / 8 = 1020 ∧
            (f.rs.decode conv.writeBuf 1020 memory).isSome ∧
            f.step neon block memory = some (f', sent) ∧ ∀ frame ∈ sent, frame.length = 892) ∧
      ∀ f, FecDecoder.Reachable F f → ∀ neon blocks,
        blocks.map Prod.fst = (d.runBuffers inputs).2 →
        ∃ f' frames, f.run neon blocks = some (f', frames) ∧
          ∀ frame ∈ frames, frame.length = 892) ∧
    ∀ conv, Convolutional.Used 2 7 r12_7_polynomial conv → ∀ neon soft out sets, 12 ≤ sets →
      (conv.Emits neon soft out sets ↔ sets < 2 ^ 32) := by
  refine ⟨fun d hd inputs => ⟨fun block hblock => ?_, fun f hf neon blocks hblocks => ?_⟩,
    fun conv hconv neon soft out sets hlarge => ?_⟩
  · have hlen := (Deframer.sized_runBuffers (Deframer.sized_reachable hd) inputs).2 block hblock
    refine ⟨hlen, fun f hf neon memory => ?_⟩
    have hproper := FecDecoder.proper_reachable hf
    obtain ⟨conv, hdecode, hwrite, hholds, -⟩ := FecDecoder.step_block hproper neon hlen memory
    obtain ⟨f', sent, hstep, hsent⟩ := FecDecoder.step_sends hproper neon hlen memory
    refine ⟨conv, _, f', sent, hdecode, hwrite, hholds, ?_, ?_, hstep, hsent⟩
    · rw [decodedBits, List.length_map, List.length_range]
    · exact Option.isSome_of_eq_some (f.rs.decode_frame conv.writeBuf memory)
  · refine FecDecoder.run_sends neon blocks (fun b hb => ?_) (FecDecoder.proper_reachable hf)
    refine (Deframer.sized_runBuffers (Deframer.sized_reachable hd) inputs).2 b.1 ?_
    rw [← hblocks]
    exact List.mem_map_of_mem hb
  · have hready := Convolutional.ready_used hconv
    constructor
    · intro hemits
      by_contra hge
      exact Convolutional.not_emits_of_wrap hready neon soft out (Nat.le_of_not_lt hge) hemits
    · exact Convolutional.emits_of_lt hready neon soft out hlarge

def Deframer.cleanFrame : NoisyFrame Rat ROT_0_DEG :=
  noisyFrame ROT_0_DEG 0 ⟨1, 0⟩ (by decide +kernel)

/-- A clean frame, and twelve symbol pairs. -/
theorem block_sizes_clean :
    let d : Deframer Rat := .init ⟨1, 0⟩ SYNC_WORD (fun _ => ⟨0, 0⟩) (fun _ => ⟨0, 0⟩)
    let f := FecDecoder.init Convolutional.zeroed default (fun _ => 0) (fun _ => 0) (fun _ => 0)
      (fun _ => 0) (fun _ => 0)
    (d.runBuffers [Deframer.cleanFrame.symbols]).2 = [Deframer.cleanFrame.block] ∧
      Deframer.cleanFrame.block.length = 8168 ∧
      (∃ f' frames, f.run false [(Deframer.cleanFrame.block, fun _ => 0)] = some (f', frames) ∧
        ∀ frame ∈ frames, frame.length = 892) ∧
      (Convolutional.fresh.Emits false (fun _ => 0) (fun _ => 0) 12 ↔ 12 < 2 ^ 32) := by
  intro d f
  have hblocks : (d.runBuffers [Deframer.cleanFrame.symbols]).2 = [Deframer.cleanFrame.block] := by
    rw [Deframer.runBuffers_eq, List.flatten_singleton]
    exact (Deframer.run_frame (r := ROT_0_DEG) (by decide) ⟨rfl, by decide +kernel⟩ _).1
  have hd : d.Reachable := ⟨_, _, _, _, [], rfl⟩
  have hf : FecDecoder.Reachable Rat f := .init _ _ _ _ _ _ _
  obtain ⟨hlens, hruns⟩ := block_sizes_iff.1 d hd [Deframer.cleanFrame.symbols]
  rw [hblocks] at hlens hruns
  exact ⟨hblocks, (hlens _ (List.mem_singleton.mpr rfl)).1, hruns f hf false _ rfl,
    (block_sizes_iff (F := Rat)).2 _ (.create Convolutional.create_fresh) false _ _ 12
      (Nat.le_refl 12)⟩

/-- With 2^32 + 8 symbol pairs the phases see eight: six bits are written, and 0 returned. -/
theorem block_sizes_misses_long :
    12 ≤ 2 ^ 32 + 8 ∧
      ¬ Convolutional.fresh.Emits false (fun _ => 0) (fun _ => 0) (2 ^ 32 + 8) :=
  ⟨by omega, Convolutional.not_emits_of_wrap Convolutional.ready_fresh false _ _ (by omega)⟩

end RyFi.Modem
