import RyFi.Conv.Neon

/-! # Instances of the decoder

What a decode call never changes is collected in `Config`.  `Used` are the instances a
program can hold: fresh from `create`, or after any decode calls; `used_configured` says
that their configuration is the one `decodeInit` sets up.
-/

namespace RyFi.Conv

open CLoop

namespace Convolutional

/-- The parts of an instance that a decode call only reads. -/
structure Config where
  table : Nat → Nat
  rate : Nat
  order : Nat
  numstates : Nat
  hasInitDecode : Bool
  softMeasurement : SoftMeasurement
  keys : Nat → Nat
  outputs : Nat → Nat
  outputMask : Nat
  outputWidth : Nat
  outputsLen : Nat
  minTracebackLength : Nat
  tracebackGroupLength : Nat
  cap : Nat
  historyStates : Nat
  highbit : Nat
  renormalizeInterval : Nat
  errorStates : Nat

def config (conv : Convolutional) : Config where
  table := conv.table
  rate := conv.rate
  order := conv.order
  numstates := conv.numstates
  hasInitDecode := conv.hasInitDecode
  softMeasurement := conv.softMeasurement
  keys := conv.pairLookup.keys
  outputs := conv.pairLookup.outputs
  outputMask := conv.pairLookup.outputMask
  outputWidth := conv.pairLookup.outputWidth
  outputsLen := conv.pairLookup.outputsLen
  minTracebackLength := conv.historyBuffer.minTracebackLength
  tracebackGroupLength := conv.historyBuffer.tracebackGroupLength
  cap := conv.historyBuffer.cap
  historyStates := conv.historyBuffer.numStates
  highbit := conv.historyBuffer.highbit
  renormalizeInterval := conv.historyBuffer.renormalizeInterval
  errorStates := conv.errors.numStates

theorem config_warmupSlice (soft : Option (Nat → UInt8)) (i : Nat) (conv : Convolutional) :
    (conv.warmupSlice soft i).config = conv.config := by
  cases soft <;> rfl

theorem config_warmup (conv : Convolutional) (sets : Nat) (soft : Option (Nat → UInt8)) :
    (conv.warmup sets soft).config = conv.config :=
  forLoop_induct (fun _ c => c.config = conv.config) (Nat.zero_le _) rfl
    fun i c _ _ h => (config_warmupSlice soft i c).trans h

theorem config_fillDistances (soft : Option (Nat → UInt8)) (i : Nat) (conv : Convolutional) :
    (conv.fillDistances soft i).config = conv.config := by
  cases soft <;> rfl

/-- The constants of the history buffer. -/
def historyConfig (buf : HistoryBuffer) : Nat × Nat × Nat × Nat × Nat × Nat :=
  (buf.minTracebackLength, buf.tracebackGroupLength, buf.cap, buf.numStates, buf.highbit,
    buf.renormalizeInterval)

theorem historyConfig_processSkip (neon : Bool) (buf : HistoryBuffer)
    (distances : Nat → UInt16) (output : BitWriter) (skip : Nat) :
    historyConfig (buf.processSkip neon distances output skip).buf = historyConfig buf := by
  simp only [HistoryBuffer.processSkip]
  split
  · split <;> rfl
  · split <;> rfl

theorem config_finishSlice (neon : Bool) (s : Slice) (skip : Nat) (conv : Convolutional) :
    (conv.finishSlice neon s skip).config = conv.config := by
  have hstatic := historyConfig_processSkip neon (conv.historyBuffer.setSlice s.history)
    s.errors conv.bitWriter skip
  simp only [finishSlice]
  generalize (conv.historyBuffer.setSlice s.history).processSkip neon s.errors conv.bitWriter
    skip = r at hstatic ⊢
  simp only [historyConfig, Prod.mk.injEq] at hstatic
  obtain ⟨h1, h2, h3, h4, h5, h6⟩ := hstatic
  simp only [config, h1, h2, h3, h4, h5, h6]
  rfl

theorem config_innerSlice (neon : Bool) (soft : Option (Nat → UInt8)) (i : Nat)
    (conv : Convolutional) : (conv.innerSlice neon soft i).config = conv.config := by
  simp only [innerSlice]
  rw [config_finishSlice]
  exact config_fillDistances soft i conv

theorem config_tailSlice (neon : Bool) (sets : Nat) (soft : Option (Nat → UInt8)) (i : Nat)
    (conv : Convolutional) : (conv.tailSlice neon sets soft i).config = conv.config := by
  simp only [tailSlice]
  rw [config_finishSlice]
  exact config_fillDistances soft i conv

theorem config_forLoop (lo hi : Nat) {body : Nat → Convolutional → Convolutional}
    (hbody : ∀ i c, (body i c).config = c.config) (conv : Convolutional) :
    (forLoop lo hi body conv).config = conv.config := by
  by_cases hle : lo ≤ hi
  · exact forLoop_induct (fun _ c => c.config = conv.config) hle rfl
      fun i c _ _ h => (hbody i c).trans h
  · rw [forLoop_of_le (by omega)]

theorem config_flush (conv : Convolutional) (output : BitWriter) :
    config { conv with
      historyBuffer := (conv.historyBuffer.flush output).1
      bitWriter := (conv.historyBuffer.flush output).2 } = conv.config := by
  simp only [HistoryBuffer.flush, HistoryBuffer.traceback]
  rfl

theorem config_decodePhases (neon : Bool) (conv : Convolutional) (sets : Nat)
    (soft : Option (Nat → UInt8)) : (conv.decodePhases neon sets soft).config = conv.config := by
  have hinner := config_forLoop (conv.order - 1) (innerEnd sets conv.order)
    (config_innerSlice neon soft) conv
  simp only [decodePhases]
  rw [config_flush]
  generalize forLoop (conv.order - 1) (innerEnd sets conv.order) (innerSlice neon soft) conv = c
    at hinner ⊢
  rw [config_forLoop _ _ (config_tailSlice neon sets soft) c, hinner]

/-! ## Instances in use -/

/-- The configuration `decodeInit` sets up. -/
def initConfig (rate order : Nat) (poly : Nat → Nat) : Config where
  table := fillTable rate poly
  rate := rate
  order := order
  numstates := 1 <<< order
  hasInitDecode := true
  softMeasurement := .linear
  keys := (PairLookup.create rate order (fillTable rate poly)).keys
  outputs := (PairLookup.create rate order (fillTable rate poly)).outputs
  outputMask := (1 <<< rate) - 1
  outputWidth := rate
  outputsLen := (PairLookup.create rate order (fillTable rate poly)).outputsLen
  minTracebackLength := 5 * order
  tracebackGroupLength := 15 * order
  cap := 5 * order + 15 * order
  historyStates := (1 <<< order) / 2
  highbit := 1 <<< (order - 1)
  renormalizeInterval := 0xFFFF / (rate * 0xFF)
  errorStates := 1 <<< order

/-- The instance belongs to the code, and its decoder is set up if it says so. -/
structure Configured (rate order : Nat) (poly : Nat → Nat) (conv : Convolutional) : Prop where
  table_eq : conv.table = fillTable rate poly
  rate_eq : conv.rate = rate
  order_eq : conv.order = order
  numstates_eq : conv.numstates = 1 <<< order
  init_config : conv.hasInitDecode = true → conv.config = initConfig rate order poly

variable {rate order : Nat} {poly : Nat → Nat} {conv : Convolutional}

theorem configured_create {raw : Convolutional} (h : create rate order poly raw = some conv) :
    Configured rate order poly conv := by
  simp only [create] at h
  split at h
  · cases h
  · split at h
    · cases h
    · cases h
      exact ⟨rfl, rfl, rfl, rfl, fun hinit => by cases hinit⟩

theorem configured_of_config (h : conv.config = initConfig rate order poly) :
    Configured rate order poly conv :=
  ⟨congrArg Config.table h, congrArg Config.rate h, congrArg Config.order h,
    congrArg Config.numstates h, fun _ => h⟩

/-- When the phases begin the decoder is set up. -/
theorem config_decodeStart (h : Configured rate order poly conv) (numEncodedBytes : Nat)
    (msg : Nat → UInt8) :
    (conv.decodeStart numEncodedBytes msg).config = initConfig rate order poly := by
  by_cases hinit : conv.hasInitDecode = true
  · rw [← h.init_config hinit]
    simp only [decodeStart, if_pos hinit]
    rfl
  · simp only [decodeStart, if_neg hinit]
    simp only [config, decodeInit, initConfig, HistoryBuffer.create, HistoryBuffer.reset,
      ErrorBuffer.create, ErrorBuffer.reset, PairLookup.create, h.table_eq, h.rate_eq,
      h.order_eq, h.numstates_eq]

theorem config_decodeSets {neon : Bool} {numEncodedBits numEncodedBytes length : Nat}
    {msg : Nat → UInt8} {soft : Option (Nat → UInt8)} {conv' : Convolutional}
    (h : Configured rate order poly conv)
    (hdone : conv.decodeSets neon numEncodedBits numEncodedBytes msg soft = some (conv', length)) :
    conv'.config = initConfig rate order poly := by
  simp only [decodeSets] at hdone
  split at hdone
  · obtain ⟨rfl, -⟩ := Prod.mk.inj (Option.some.inj hdone)
    rw [config_decodePhases, config_warmup, config_decodeStart h]
  · cases hdone

/-- The instances a program can hold. -/
inductive Used (rate order : Nat) (poly : Nat → Nat) : Convolutional → Prop where
  | create {raw conv : Convolutional} (h : create rate order poly raw = some conv) :
      Used rate order poly conv
  | decode {conv conv' : Convolutional} (h : Used rate order poly conv) {neon : Bool}
      {encoded msg : Nat → UInt8} {numEncodedBits length : Nat}
      (hdone : conv.decode neon encoded numEncodedBits msg = .done conv' length) :
      Used rate order poly conv'
  | decodeSoft {conv conv' : Convolutional} (h : Used rate order poly conv) {neon : Bool}
      {encoded msg : Nat → UInt8} {numEncodedBits length : Nat}
      (hdone : conv.decodeSoft neon encoded numEncodedBits msg = .done conv' length) :
      Used rate order poly conv'

theorem decode_done {neon : Bool} {conv conv' : Convolutional} {encoded msg : Nat → UInt8}
    {numEncodedBits length : Nat}
    (h : conv.decode neon encoded numEncodedBits msg = .done conv' length) :
    Convolutional.decodeSets neon
        { conv with bitReader := BitReader.reconfigure encoded ((numEncodedBits + 7) / 8) }
        numEncodedBits ((numEncodedBits + 7) / 8) msg none = some (conv', length) := by
  simp only [Convolutional.decode] at h
  split at h
  · cases h
  · split at h
    next hsome => cases h; exact hsome
    next => cases h

theorem decodeSoft_done {neon : Bool} {conv conv' : Convolutional} {encoded msg : Nat → UInt8}
    {numEncodedBits length : Nat}
    (h : conv.decodeSoft neon encoded numEncodedBits msg = .done conv' length) :
    conv.decodeSets neon numEncodedBits ((numEncodedBits + 7) / 8) msg (some encoded) =
      some (conv', length) := by
  simp only [Convolutional.decodeSoft] at h
  split at h
  · cases h
  · split at h
    next hsome => cases h; exact hsome
    next => cases h

theorem used_configured (h : Used rate order poly conv) : Configured rate order poly conv := by
  induction h with
  | create h => exact configured_create h
  | decode h hdone ih =>
    refine configured_of_config (config_decodeSets ?_ (decode_done hdone))
    exact ⟨ih.table_eq, ih.rate_eq, ih.order_eq, ih.numstates_eq, ih.init_config⟩
  | decodeSoft h hdone ih =>
    exact configured_of_config (config_decodeSets ih (decodeSoft_done hdone))

/-! ## The choice of version makes no difference -/

theorem processSkip_neon_eq {buf : HistoryBuffer} (hstates : buf.numStates ≤ 65536)
    (distances : Nat → UInt16) (output : BitWriter) (skip : Nat) :
    buf.processSkip true distances output skip = buf.processSkip false distances output skip := by
  simp only [HistoryBuffer.processSkip]
  split
  · rw [HistoryBuffer.search_neon_eq _ (by exact hstates)]
  · split
    · rw [HistoryBuffer.search_neon_eq _ (by exact hstates)]
    · rfl

theorem finishSlice_neon_eq (hstates : conv.historyBuffer.numStates ≤ 65536) (s : Slice)
    (skip : Nat) : conv.finishSlice true s skip = conv.finishSlice false s skip := by
  simp only [finishSlice]
  rw [processSkip_neon_eq (by exact hstates)]

theorem innerSlice_neon_eq (hstates : conv.historyBuffer.numStates ≤ 65536)
    (soft : Option (Nat → UInt8)) (i : Nat) :
    conv.innerSlice true soft i = conv.innerSlice false soft i := by
  have hfill : (conv.fillDistances soft i).historyBuffer.numStates ≤ 65536 := by
    rw [show (conv.fillDistances soft i).historyBuffer.numStates =
      conv.historyBuffer.numStates from
        congrArg Config.historyStates (config_fillDistances soft i conv)]
    exact hstates
  simp only [innerSlice, acs_eq]
  refine finishSlice_neon_eq ?_ _ _
  exact hfill

theorem tailSlice_neon_eq (hstates : conv.historyBuffer.numStates ≤ 65536) (sets : Nat)
    (soft : Option (Nat → UInt8)) (i : Nat) :
    conv.tailSlice true sets soft i = conv.tailSlice false sets soft i := by
  have hfill : (conv.fillDistances soft i).historyBuffer.numStates ≤ 65536 := by
    rw [show (conv.fillDistances soft i).historyBuffer.numStates =
      conv.historyBuffer.numStates from
        congrArg Config.historyStates (config_fillDistances soft i conv)]
    exact hstates
  simp only [tailSlice]
  exact finishSlice_neon_eq hfill _ _

/-- A loop over slices with either version. -/
theorem slices_neon_eq {lo hi : Nat} {body body' : Nat → Convolutional → Convolutional}
    (hbody : ∀ i c, c.historyBuffer.numStates ≤ 65536 → body i c = body' i c)
    (hconfig : ∀ i c, (body' i c).config = c.config)
    (hstates : conv.historyBuffer.numStates ≤ 65536) :
    forLoop lo hi body conv = forLoop lo hi body' conv := by
  by_cases hle : lo ≤ hi
  · refine (forLoop_rel (fun _ c c' => c = c' ∧ c.historyBuffer.numStates ≤ 65536) hle
      ⟨rfl, hstates⟩ ?_).1
    rintro i c _ - - ⟨rfl, hc⟩
    refine ⟨hbody i c hc, ?_⟩
    rw [hbody i c hc, show (body' i c).historyBuffer.numStates = c.historyBuffer.numStates from
      congrArg Config.historyStates (hconfig i c)]
    exact hc
  · rw [forLoop_of_le (by omega), forLoop_of_le (by omega)]

theorem historyStates_of_config {c c' : Convolutional} (h : c.config = c'.config) :
    c.historyBuffer.numStates = c'.historyBuffer.numStates :=
  congrArg Config.historyStates h

theorem decodePhases_neon_eq (hstates : conv.historyBuffer.numStates ≤ 65536) (sets : Nat)
    (soft : Option (Nat → UInt8)) :
    conv.decodePhases true sets soft = conv.decodePhases false sets soft := by
  have hinner : forLoop (conv.order - 1) (innerEnd sets conv.order) (innerSlice true soft) conv =
      forLoop (conv.order - 1) (innerEnd sets conv.order) (innerSlice false soft) conv :=
    slices_neon_eq (fun i c hc => innerSlice_neon_eq hc soft i) (config_innerSlice false soft)
      hstates
  have hconfig := config_forLoop (conv.order - 1) (innerEnd sets conv.order)
    (config_innerSlice false soft) conv
  unfold decodePhases
  rw [hinner]
  generalize forLoop (conv.order - 1) (innerEnd sets conv.order) (innerSlice false soft) conv = c
    at hconfig ⊢
  have htail : forLoop (innerEnd sets c.order % 2 ^ 32) sets (tailSlice true sets soft) c =
      forLoop (innerEnd sets c.order % 2 ^ 32) sets (tailSlice false sets soft) c :=
    slices_neon_eq (fun i c hc => tailSlice_neon_eq hc sets soft i)
      (config_tailSlice false sets soft) (by rw [historyStates_of_config hconfig]; exact hstates)
  simp only [htail]

/-- The instance after the time slices below `i` of the inner and the tail phase. -/
def afterSlices (neon : Bool) (conv : Convolutional) (sets : Nat) (soft : Option (Nat → UInt8))
    (i : Nat) : Convolutional :=
  let conv :=
    forLoop (conv.order - 1) (min i (innerEnd sets conv.order)) (innerSlice neon soft) conv
  forLoop (innerEnd sets conv.order % 2 ^ 32) (min i sets) (tailSlice neon sets soft) conv

theorem config_afterSlices (neon : Bool) (conv : Convolutional) (sets : Nat)
    (soft : Option (Nat → UInt8)) (i : Nat) :
    (conv.afterSlices neon sets soft i).config = conv.config := by
  unfold afterSlices
  exact (config_forLoop _ _ (config_tailSlice neon sets soft) _).trans
    (config_forLoop _ _ (config_innerSlice neon soft) conv)

theorem afterSlices_neon_eq (hstates : conv.historyBuffer.numStates ≤ 65536) (sets : Nat)
    (soft : Option (Nat → UInt8)) (i : Nat) :
    conv.afterSlices true sets soft i = conv.afterSlices false sets soft i := by
  have hinner : forLoop (conv.order - 1) (min i (innerEnd sets conv.order))
        (innerSlice true soft) conv =
      forLoop (conv.order - 1) (min i (innerEnd sets conv.order)) (innerSlice false soft) conv :=
    slices_neon_eq (fun i c hc => innerSlice_neon_eq hc soft i) (config_innerSlice false soft)
      hstates
  have hconfig := config_forLoop (conv.order - 1) (min i (innerEnd sets conv.order))
    (config_innerSlice false soft) conv
  unfold afterSlices
  rw [hinner]
  generalize forLoop (conv.order - 1) (min i (innerEnd sets conv.order)) (innerSlice false soft)
    conv = c at hconfig ⊢
  exact slices_neon_eq (fun i c hc => tailSlice_neon_eq hc sets soft i)
    (config_tailSlice false sets soft) (by rw [historyStates_of_config hconfig]; exact hstates)

theorem historyStates_le (h : Configured rate order poly conv) (hle : order ≤ 16)
    (numEncodedBytes : Nat) (msg : Nat → UInt8) (sets : Nat) (soft : Option (Nat → UInt8)) :
    ((conv.decodeStart numEncodedBytes msg).warmup sets soft).historyBuffer.numStates ≤ 65536 := by
  have hconfig := (config_warmup (conv.decodeStart numEncodedBytes msg) sets soft).trans
    (config_decodeStart h numEncodedBytes msg)
  have hstates : ((conv.decodeStart numEncodedBytes msg).warmup sets
      soft).historyBuffer.numStates = (1 <<< order) / 2 := congrArg Config.historyStates hconfig
  have hpow : 1 <<< order ≤ 2 ^ 16 := by
    rw [Nat.one_shiftLeft]
    exact Nat.pow_le_pow_right (by omega) hle
  omega

theorem decodeSets_neon_eq (h : Configured rate order poly conv) (hle : order ≤ 16)
    (numEncodedBits numEncodedBytes : Nat) (msg : Nat → UInt8) (soft : Option (Nat → UInt8)) :
    conv.decodeSets true numEncodedBits numEncodedBytes msg soft =
      conv.decodeSets false numEncodedBits numEncodedBytes msg soft := by
  simp only [decodeSets]
  rw [decodePhases_neon_eq (historyStates_le h hle numEncodedBytes msg _ soft)]

/-- The NEON version is bit-exact: after every time slice the two instances are the same
    (errors, history and output), every slice is filled alike, every search finds the same
    state, and so the soft and the hard decoder return the same. -/
theorem neon_bit_exact (hle : order ≤ 16) (h : Used rate order poly conv)
    (encoded msg : Nat → UInt8) (numEncodedBits : Nat) :
    (∀ sets soft i,
      let start := (conv.decodeStart ((numEncodedBits + 7) / 8) msg).warmup sets soft
      let c := start.afterSlices false sets soft i
      start.afterSlices true sets soft i = c ∧
        (∀ pairs highbase, acs true pairs highbase c.errors.readErrors c.currentSlice =
          acs false pairs highbase c.errors.readErrors c.currentSlice) ∧
        ∀ distances skip, c.historyBuffer.search true distances skip =
          c.historyBuffer.search false distances skip) ∧
      conv.decodeSoft true encoded numEncodedBits msg =
        conv.decodeSoft false encoded numEncodedBits msg ∧
      conv.decode true encoded numEncodedBits msg =
        conv.decode false encoded numEncodedBits msg := by
  have hconf := used_configured h
  refine ⟨fun sets soft i => ?_, ?_, ?_⟩
  · have hstates := historyStates_le hconf hle ((numEncodedBits + 7) / 8) msg sets soft
    generalize (conv.decodeStart ((numEncodedBits + 7) / 8) msg).warmup sets soft = start
      at hstates ⊢
    refine ⟨afterSlices_neon_eq hstates sets soft i, fun pairs highbase => ?_,
      fun distances skip => HistoryBuffer.search_neon_eq _ ?_ distances skip⟩
    · rw [acs_eq, acs_eq]
    · rw [historyStates_of_config (config_afterSlices false start sets soft i)]
      exact hstates
  · simp only [Convolutional.decodeSoft]
    rw [decodeSets_neon_eq hconf hle]
  · simp only [Convolutional.decode]
    have hconf' : Configured rate order poly
        { conv with bitReader := BitReader.reconfigure encoded ((numEncodedBits + 7) / 8) } :=
      ⟨hconf.table_eq, hconf.rate_eq, hconf.order_eq, hconf.numstates_eq, hconf.init_config⟩
    rw [decodeSets_neon_eq hconf' hle]

/-- The code of the modem, on 32 soft bits. -/
theorem neon_bit_exact_r12_7 :
    (initialized 2 7 r12_7_polynomial zeroed).decodeSoft true (fun _ => 0) 32 (fun _ => 0) =
      (initialized 2 7 r12_7_polynomial zeroed).decodeSoft false (fun _ => 0) 32 (fun _ => 0) :=
  (neon_bit_exact (by decide)
    (Used.create (show create 2 7 r12_7_polynomial zeroed = some _ from rfl))
    (fun _ => 0) (fun _ => 0) 32).2.1

end Convolutional

end RyFi.Conv
