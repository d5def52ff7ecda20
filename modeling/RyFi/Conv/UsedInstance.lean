import RyFi.Conv.DecodeRun

/-! # Decoding with any instance a program can hold

The renormalization counter is the one thing a decode leaves to the next one; it stays below
its interval.  So every used instance of the modem's code decodes like a fresh one, and
`decodeSoft_code` is the specification of `correct_convolutional_decode_soft`.
-/

namespace RyFi.Conv

open CLoop

theorem HistoryBuffer.counter_processSkip (neon : Bool) {buf : HistoryBuffer}
    (h : buf.renormalizeCounter < buf.renormalizeInterval) (distances : Nat → UInt16)
    (output : BitWriter) (skip : Nat) :
    (buf.processSkip neon distances output skip).buf.renormalizeCounter <
      buf.renormalizeInterval := by
  have hadvance : buf.advance.renormalizeCounter < buf.renormalizeInterval := by
    simp only [advance]
    split <;> omega
  rw [processSkip_eq]
  split
  · exact hadvance
  · exact hadvance

namespace Convolutional

variable {soft : Option (Nat → UInt8)} {conv conv' : Convolutional}

/-- An instance of the code between two slices. -/
def Counting (conv : Convolutional) : Prop :=
  OfCode conv ∧ conv.historyBuffer.renormalizeCounter < 128

theorem counting_finishSlice (h : Counting conv) (neon : Bool) (s : Slice) (skip : Nat) :
    Counting (conv.finishSlice neon s skip) := by
  have hinterval : (conv.historyBuffer.setSlice s.history).renormalizeInterval = 128 :=
    h.1.renormalizeInterval_eq
  have hlt : (conv.historyBuffer.setSlice s.history).renormalizeCounter <
      (conv.historyBuffer.setSlice s.history).renormalizeInterval := by
    rw [hinterval]
    exact h.2
  have hstep := HistoryBuffer.counter_processSkip neon hlt s.errors conv.bitWriter skip
  rw [hinterval] at hstep
  exact ⟨(config_finishSlice neon s skip conv).trans h.1, hstep⟩

theorem counting_fillDistances (h : Counting conv) (soft : Option (Nat → UInt8)) (i : Nat) :
    Counting (conv.fillDistances soft i) := by
  refine ⟨(config_fillDistances soft i conv).trans h.1, ?_⟩
  cases soft <;> exact h.2

theorem counting_innerSlice (neon : Bool) (soft : Option (Nat → UInt8)) (i : Nat)
    (h : Counting conv) : Counting (conv.innerSlice neon soft i) := by
  have hfilled := counting_fillDistances h soft i
  simp only [innerSlice]
  exact counting_finishSlice ⟨hfilled.1, hfilled.2⟩ neon _ _

theorem counting_tailSlice (neon : Bool) (sets : Nat) (soft : Option (Nat → UInt8)) (i : Nat)
    (h : Counting conv) : Counting (conv.tailSlice neon sets soft i) := by
  simp only [tailSlice]
  exact counting_finishSlice (counting_fillDistances h soft i) neon _ _

theorem counting_forLoop (lo hi : Nat) {body : Nat → Convolutional → Convolutional}
    (hbody : ∀ i c, Counting c → Counting (body i c)) (h : Counting conv) :
    Counting (forLoop lo hi body conv) := by
  by_cases hle : lo ≤ hi
  · exact forLoop_induct (fun _ c => Counting c) hle h fun i c _ _ => hbody i c
  · rw [forLoop_of_le (by omega)]
    exact h

theorem counting_decodePhases (h : Counting conv) (neon : Bool) (sets : Nat)
    (soft : Option (Nat → UInt8)) : Counting (conv.decodePhases neon sets soft) := by
  have hinner := counting_forLoop (conv.order - 1) (innerEnd sets conv.order)
    (fun i c => counting_innerSlice neon soft i) h
  refine ⟨(config_decodePhases neon conv sets soft).trans h.1, ?_⟩
  unfold decodePhases
  generalize forLoop (conv.order - 1) (innerEnd sets conv.order) (innerSlice neon soft) conv = c
    at hinner ⊢
  exact (counting_forLoop _ _ (fun i c => counting_tailSlice neon sets soft i) hinner).2

theorem counting_warmup (h : Counting conv) (sets : Nat) (soft : Option (Nat → UInt8)) :
    Counting (conv.warmup sets soft) := by
  refine ⟨(config_warmup conv sets soft).trans h.1, ?_⟩
  refine forLoop_induct (fun _ (c : Convolutional) => c.historyBuffer.renormalizeCounter < 128)
    (Nat.zero_le _) h.2 fun i c _ _ hc => ?_
  cases soft <;> exact hc

/-- An instance of the code that may still have to set up its decoder. -/
structure Ready (conv : Convolutional) : Prop where
  configured : Configured 2 7 r12_7_polynomial conv
  counter_lt : conv.hasInitDecode = true → conv.historyBuffer.renormalizeCounter < 128

theorem ready_bitReader (h : Ready conv) (bitReader : BitReader) :
    Ready { conv with bitReader := bitReader } :=
  ⟨⟨h.configured.table_eq, h.configured.rate_eq, h.configured.order_eq,
    h.configured.numstates_eq, h.configured.init_config⟩, h.counter_lt⟩

theorem counting_decodeStart (h : Ready conv) (numEncodedBytes : Nat) (msg : Nat → UInt8) :
    Counting (conv.decodeStart numEncodedBytes msg) := by
  refine ⟨config_decodeStart h.configured numEncodedBytes msg, ?_⟩
  by_cases hinit : conv.hasInitDecode = true
  · simp only [decodeStart, if_pos hinit]
    exact h.counter_lt hinit
  · simp only [decodeStart, if_neg hinit]
    exact Nat.succ_pos 127

theorem ready_decodeSets {neon : Bool} {numEncodedBits numEncodedBytes length : Nat}
    {msg : Nat → UInt8} (h : Ready conv)
    (hdone : conv.decodeSets neon numEncodedBits numEncodedBytes msg soft = some (conv', length)) :
    Ready conv' := by
  refine ⟨configured_of_config (config_decodeSets h.configured hdone), fun _ => ?_⟩
  have hstart := counting_warmup (counting_decodeStart h numEncodedBytes msg)
    (numEncodedBits / conv.rate % 2 ^ 32) soft
  simp only [decodeSets] at hdone
  split at hdone
  · obtain ⟨rfl, -⟩ := Prod.mk.inj (Option.some.inj hdone)
    exact (counting_decodePhases hstart neon _ soft).2
  · cases hdone

theorem ready_used (h : Used 2 7 r12_7_polynomial conv) : Ready conv := by
  induction h with
  | create h =>
    have hfresh := configured_create h
    simp only [create] at h
    split at h
    · cases h
    · split at h
      · cases h
      · cases h
        exact ⟨hfresh, fun hinit => by cases hinit⟩
  | decode h hdone ih =>
    exact ready_decodeSets (ready_bitReader ih _) (decode_done hdone)
  | decodeSoft h hdone ih => exact ready_decodeSets ih (decodeSoft_done hdone)

/-- A fresh instance of the modem's code. -/
def fresh : Convolutional := initialized 2 7 r12_7_polynomial zeroed

theorem create_fresh : create 2 7 r12_7_polynomial zeroed = some fresh := rfl

theorem ready_fresh : Ready fresh := ready_used (Used.create create_fresh)

theorem cleared_decodeStart (h : Ready conv) (numEncodedBytes : Nat) (msg : Nat → UInt8) :
    Cleared (conv.decodeStart numEncodedBytes msg).errors := by
  refine ⟨rfl, rfl, fun s hs => ?_⟩
  have hstates : (conv.decodeStart numEncodedBytes msg).errors.numStates = 1 <<< 7 :=
    congrArg Config.errorStates (config_decodeStart h.configured numEncodedBytes msg)
  have hreset : ∀ b : ErrorBuffer, b.numStates = 1 <<< 7 → b.reset.errors 0 s = 0 := by
    intro b hb
    simp only [ErrorBuffer.reset, hb]
    rw [if_pos ⟨Nat.lt_of_lt_of_le hs (by decide), by omega⟩]
  by_cases hinit : conv.hasInitDecode = true
  · simp only [decodeStart, if_pos hinit] at hstates ⊢
    exact hreset _ hstates
  · simp only [decodeStart, if_neg hinit] at hstates ⊢
    exact hreset _ hstates

/-- A decode of at least twelve and fewer than 2^32 slices writes the message the ideal
    decoder finds. -/
theorem decodeSets_code (h : Ready conv) (neon : Bool) {numEncodedBits sets : Nat}
    (numEncodedBytes : Nat) (soft msg : Nat → UInt8) (hbits : numEncodedBits / 2 = sets)
    (hlarge : 12 ≤ sets) (hsets : sets < 2 ^ 32) :
    ∃ conv', conv.decodeSets neon numEncodedBits numEncodedBytes msg (some soft) =
        some (conv', (sets - 6) / 8) ∧
      BitWriter.Holds msg (decodedBits soft sets (sets - 6)) conv'.bitWriter := by
  have hcounting := counting_decodeStart h numEncodedBytes msg
  have hdecoding := decoding_warmup soft hcounting.1
    (cleared_decodeStart h numEncodedBytes msg) hcounting.2 rfl rfl
    (BitWriter.holds_reconfigure msg numEncodedBytes) hlarge
  simp only [decodeSets, h.configured.rate_eq, hbits, Nat.mod_eq_of_lt hsets]
  generalize (conv.decodeStart numEncodedBytes msg).warmup sets (some soft) = start at hdecoding
  obtain ⟨off, htracks⟩ := hdecoding.tracks
  have hholds := decodePhases_holds hdecoding hlarge hsets neon
  rw [htracks.ofCode.order_eq, innerEnd_eq (by omega) (by omega) hsets, if_pos (by omega)]
  refine ⟨_, ?_, hholds⟩
  rw [BitWriter.length, hholds.byteIndex, decodedBits, List.length_map, List.length_range]

/-- `correct_convolutional_decode_soft` for the modem's code. -/
theorem decodeSoft_code (h : Ready conv) (neon : Bool) {sets : Nat} (soft msg : Nat → UInt8)
    (hlarge : 12 ≤ sets) (hsets : sets < 2 ^ 32) :
    ∃ conv', conv.decodeSoft neon soft (2 * sets) msg = .done conv' ((sets - 6) / 8) ∧
      BitWriter.Holds msg (decodedBits soft sets (sets - 6)) conv'.bitWriter ∧ Ready conv' := by
  obtain ⟨conv', hdone, hholds⟩ := decodeSets_code h neon ((2 * sets + 7) / 8) soft msg
    (show 2 * sets / 2 = sets by omega) hlarge hsets
  refine ⟨conv', ?_, hholds, ready_decodeSets h hdone⟩
  simp only [Convolutional.decodeSoft, h.configured.rate_eq]
  rw [if_neg (by omega), hdone]

/-- Beyond 2^32 slices the count wraps: a decode that ends has seen the remainder only. -/
theorem decodeSoft_wraps (h : Ready conv) (neon : Bool) {sets length : Nat} (soft msg : Nat → UInt8)
    (hdone : conv.decodeSoft neon soft (2 * sets) msg = .done conv' length) :
    ∃ bits, length = bits.length / 8 ∧ bits.length = max 6 (sets % 2 ^ 32 - 6) ∧
      BitWriter.Holds msg bits conv'.bitWriter := by
  have hsets := decodeSoft_done hdone
  have hhalf : 2 * sets / 2 = sets := by omega
  by_cases hfew : sets % 2 ^ 32 + 1 < 7
  · rw [decodeSets_never h.configured (by omega) neon _ _ msg (some soft)
      (by rw [hhalf]; exact hfew)] at hsets
    cases hsets
  · obtain ⟨conv'', bits, hcount, hlen, hholds⟩ := decodeSets_counts h.configured (by omega) neon
      (2 * sets) ((2 * sets + 7) / 8) msg (some soft) (by rw [hhalf]; omega)
    rw [hcount] at hsets
    obtain ⟨rfl, rfl⟩ := Prod.mk.inj (Option.some.inj hsets)
    rw [hhalf] at hlen
    exact ⟨bits, rfl, hlen, hholds⟩

/-! ## The number of bits -/

/-- A decode of `sets` symbol pairs writes `sets - 6` bits and returns how many bytes they
    fill. -/
def Emits (conv : Convolutional) (neon : Bool) (soft out : Nat → UInt8) (sets : Nat) : Prop :=
  ∃ conv' bits, conv.decodeSoft neon soft (2 * sets) out = .done conv' ((sets - 6) / 8) ∧
    BitWriter.Holds out bits conv'.bitWriter ∧ bits.length = sets - 6

theorem emits_of_lt (h : Ready conv) (neon : Bool)
    (soft out : Nat → UInt8) {sets : Nat} (hlarge : 12 ≤ sets) (hsets : sets < 2 ^ 32) :
    Emits conv neon soft out sets := by
  obtain ⟨conv', hdone, hholds, -⟩ := decodeSoft_code h neon soft out hlarge hsets
  refine ⟨conv', _, hdone, hholds, ?_⟩
  rw [decodedBits, List.length_map, List.length_range]

theorem not_emits_of_wrap (h : Ready conv) (neon : Bool)
    (soft out : Nat → UInt8) {sets : Nat} (hsets : 2 ^ 32 ≤ sets) :
    ¬ Emits conv neon soft out sets := by
  rintro ⟨conv', bits, hdone, hholds, hlen⟩
  obtain ⟨bits', -, hlen', hholds'⟩ := decodeSoft_wraps h neon soft out hdone
  have hsame := BitWriter.length_of_holds hholds hholds'
  omega

end Convolutional

end RyFi.Conv
