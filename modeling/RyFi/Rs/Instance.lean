import RyFi.Rs.Evaluation
import RyFi.Rs.ReedSolomon

/-! # Instances of the decoder

What neither call changes once the decoder is set up is collected in `Config`.  `Created`
says what `correct_reed_solomon_create` makes of it in the configuration of the modem,
`Built` what `correct_reed_solomon_decoder_create` adds, and `Usable` is what is left true
by every call, so that it holds of every `Reachable` instance.
-/

namespace RyFi.Rs

open CLoop Polynomial PolynomialT

namespace ReedSolomon

/-- The parts of an instance that the calls only read, once they are set up. -/
structure Config where
  blockLength : Nat
  messageLength : Nat
  minDistance : Nat
  firstConsecutiveRoot : UInt8
  generatorRootGap : UInt8
  field : FieldT
  generator : PolynomialT
  generatorRoots : Nat → UInt8
  generatorRootExp : Nat → Nat → UInt8
  elementExp : Nat → Nat → UInt8
  encodedOrder : Nat
  remainderOrder : Nat
  receivedOrder : Nat
  evaluatorOrder : Nat
  hasInitDecode : Bool

def config (rs : ReedSolomon) : Config where
  blockLength := rs.blockLength
  messageLength := rs.messageLength
  minDistance := rs.minDistance
  firstConsecutiveRoot := rs.firstConsecutiveRoot
  generatorRootGap := rs.generatorRootGap
  field := rs.field
  generator := rs.generator
  generatorRoots := rs.generatorRoots
  generatorRootExp := rs.generatorRootExp
  elementExp := rs.elementExp
  encodedOrder := rs.encodedPolynomial.order
  remainderOrder := rs.encodedRemainder.order
  receivedOrder := rs.receivedPolynomial.order
  evaluatorOrder := rs.errorEvaluator.order
  hasInitDecode := rs.hasInitDecode

/-- The instance of the modem after `correct_reed_solomon_create`. -/
structure Created (c : Config) : Prop where
  blockLength_eq : c.blockLength = 255
  messageLength_eq : c.messageLength = 223
  minDistance_eq : c.minDistance = 32
  firstConsecutiveRoot_eq : c.firstConsecutiveRoot = 1
  generatorRootGap_eq : c.generatorRootGap = 1
  field_eq : c.field = ccsdsField
  roots_eq : ∀ i, i < 32 → el (c.generatorRoots i) = α ^ (i + 1)
  generator_order : c.generator.order = 32
  generator_leading : c.generator.coeff 32 = 1
  generator_eq : c.generator.toPoly = rootsPoly 32 c.generatorRoots
  encodedOrder_eq : c.encodedOrder = 254
  remainderOrder_eq : c.remainderOrder = 254

/-- With the tables of the decoder. -/
structure Built (c : Config) : Prop extends Created c where
  hasInitDecode_eq : c.hasInitDecode = true
  rootPowers : ∀ i, i < 32 → PowersOf 255 (α ^ (i + 1)) (c.generatorRootExp i)
  zeroRow : c.elementExp 0 0 = 0
  elementPowers : ∀ b : UInt8, b ≠ 0 → PowersOf 32 (el b) (c.elementExp b.toNat)
  receivedOrder_eq : c.receivedOrder = 254
  evaluatorOrder_eq : c.evaluatorOrder = 31

section

variable {rs : ReedSolomon} (h : Built rs.config)

include h

theorem Built.blockLength : rs.blockLength = 255 := h.blockLength_eq

theorem Built.minDistance : rs.minDistance = 32 := h.minDistance_eq

theorem Built.field : rs.field = ccsdsField := h.field_eq

theorem Built.gap : rs.generatorRootGap = 1 := h.generatorRootGap_eq

theorem Built.firstRoot : rs.firstConsecutiveRoot = 1 := h.firstConsecutiveRoot_eq

theorem Built.receivedOrder : rs.receivedPolynomial.order = 254 := h.receivedOrder_eq

theorem Built.evaluatorOrder : rs.errorEvaluator.order = 31 := h.evaluatorOrder_eq

theorem Built.rootRow {i : Nat} (hi : i < 32) :
    PowersOf 255 (α ^ (i + 1)) (rs.generatorRootExp i) :=
  h.rootPowers i hi

theorem Built.elementZero : rs.elementExp 0 0 = 0 := h.zeroRow

theorem Built.elementRow {b : UInt8} (hb : b ≠ 0) : PowersOf 32 (el b) (rs.elementExp b.toNat) :=
  h.elementPowers b hb

end

/-- What the steps below rely on. -/
def Usable (rs : ReedSolomon) : Prop :=
  Created rs.config ∧ (rs.hasInitDecode = true → Built rs.config)

variable {rs : ReedSolomon}

/-- What a program can hold: a new instance, or one after any calls. -/
inductive Reachable : ReedSolomon → Prop where
  | create (raw : ReedSolomon) : Reachable (create rs_primitive_polynomial_ccsds 1 1 32 raw)
  | encode {rs : ReedSolomon} (h : Reachable rs) (msg : Nat → UInt8) (msgLength : Nat)
      (encoded : Nat → UInt8) : Reachable (rs.encode msg msgLength encoded).1
  | decode {rs : ReedSolomon} (h : Reachable rs) (encoded : Nat → UInt8) (encodedLength : Nat)
      (msg : Nat → UInt8) (at_ : Nat) : Reachable (rs.decode encoded encodedLength msg at_).1

/-! ## What is created -/

theorem create_generatorRoots (p : UInt16) (fcr gap : UInt8) (numRoots : Nat)
    (raw : ReedSolomon) {i : Nat} (hi : i < numRoots) :
    (create p fcr gap numRoots raw).generatorRoots i =
      (FieldT.create p).exp (gap.toNat * (i + fcr.toNat) % 255) := by
  simp only [create, buildGenerator]
  rw [forLoop_update, if_pos ⟨Nat.zero_le i, hi⟩]

theorem create_generator (p : UInt16) (fcr gap : UInt8) (numRoots : Nat) (raw : ReedSolomon) :
    (create p fcr gap numRoots raw).generator = createFromRoots (FieldT.create p) numRoots
      (create p fcr gap numRoots raw).generatorRoots raw.generator := rfl

theorem created_create (raw : ReedSolomon) {p : UInt16} {numRoots : Nat}
    (hp : p = rs_primitive_polynomial_ccsds) (hn : numRoots = 32) :
    Created (create p 1 1 numRoots raw).config where
  blockLength_eq := rfl
  messageLength_eq := congrArg (255 - ·) hn
  minDistance_eq := hn
  firstConsecutiveRoot_eq := rfl
  generatorRootGap_eq := rfl
  field_eq := by
    simp only [config, create]
    rw [hp, ← ccsdsField_eq]
  roots_eq := fun i hi => by
    simp only [config]
    rw [create_generatorRoots _ _ _ _ _ (hn ▸ hi), hp, ← ccsdsField_eq,
      show (1 : UInt8).toNat = 1 from rfl, Nat.one_mul, Nat.mod_eq_of_lt (by omega),
      el_exp (by omega)]
  generator_order := hn
  generator_leading := by
    simp only [config]
    rw [create_generator, hp, ← ccsdsField_eq, ← hn]
    exact createFromRoots_leading (by omega) _ _
  generator_eq := by
    simp only [config]
    rw [create_generator, hp, ← ccsdsField_eq, ← hn]
    exact toPoly_createFromRoots (by omega) _ _
  encodedOrder_eq := rfl
  remainderOrder_eq := rfl

theorem usable_create (raw : ReedSolomon) :
    Usable (create rs_primitive_polynomial_ccsds 1 1 32 raw) :=
  ⟨created_create raw rfl rfl, fun h => absurd h Bool.false_ne_true⟩

theorem built_decoderCreate (h : Created rs.config) : Built rs.decoderCreate.config where
  toCreated := ⟨h.blockLength_eq, h.messageLength_eq, h.minDistance_eq,
    h.firstConsecutiveRoot_eq, h.generatorRootGap_eq, h.field_eq, h.roots_eq, h.generator_order,
    h.generator_leading, h.generator_eq, h.encodedOrder_eq, h.remainderOrder_eq⟩
  hasInitDecode_eq := rfl
  rootPowers := fun i hi => by
    have hroot : el (rs.generatorRoots i) = α ^ (i + 1) := h.roots_eq i hi
    simp only [config, decoderCreate]
    rw [forLoop_modify 0 rs.minDistance (fun i row =>
      buildExpLut rs.field (rs.generatorRoots i) (rs.blockLength - 1) row),
      if_pos ⟨Nat.zero_le i, lt_of_lt_of_eq hi h.minDistance_eq.symm⟩,
      show rs.field = ccsdsField from h.field_eq, show rs.blockLength = 255 from h.blockLength_eq,
      ← hroot]
    refine powersOf_buildExpLut (fun hzero => ?_) 254 _
    rw [hzero, el_zero] at hroot
    exact α_pow_ne (i + 1) hroot.symm
  zeroRow := by
    simp only [config, decoderCreate]
    rw [forLoop_modify 0 256 (fun i row =>
      buildExpLut rs.field (UInt8.ofNat i) (rs.minDistance - 1) row), if_pos (by omega),
      show rs.field = ccsdsField from h.field_eq]
    exact buildExpLut_zero _ _
  elementPowers := fun b hb => by
    simp only [config, decoderCreate]
    rw [forLoop_modify 0 256 (fun i row =>
      buildExpLut rs.field (UInt8.ofNat i) (rs.minDistance - 1) row),
      if_pos ⟨Nat.zero_le _, UInt8.toNat_lt b⟩, show rs.field = ccsdsField from h.field_eq,
      show rs.minDistance = 32 from h.minDistance_eq, UInt8.ofNat_toNat]
    exact powersOf_buildExpLut hb 31 _
  receivedOrder_eq := congrArg (· - 1) h.blockLength_eq
  evaluatorOrder_eq := congrArg (· - 1) h.minDistance_eq

/-- The instance a decode call works on. -/
def prepared (rs : ReedSolomon) : ReedSolomon :=
  if rs.hasInitDecode then rs else rs.decoderCreate

theorem built_prepared (h : Usable rs) : Built rs.prepared.config := by
  rw [prepared]
  split
  next hinit => exact h.2 hinit
  next => exact built_decoderCreate h.1

/-! ## What the calls change -/

theorem usable_of_config {rs' : ReedSolomon} (heq : rs'.config = rs.config) (h : Usable rs) :
    Usable rs' := by
  refine ⟨heq ▸ h.1, fun hinit => heq ▸ h.2 ?_⟩
  rw [← show rs'.hasInitDecode = rs.hasInitDecode from congrArg Config.hasInitDecode heq]
  exact hinit

theorem usable_of_built (h : Built rs.config) : Usable rs := ⟨h.toCreated, fun _ => h⟩

theorem mod_order (f : FieldT) (dividend divisor res : PolynomialT) :
    (PolynomialT.mod f dividend divisor res).order = res.order := by
  rw [PolynomialT.mod]
  split <;> rfl

theorem config_encode (rs : ReedSolomon) (msg : Nat → UInt8) (msgLength : Nat)
    (encoded : Nat → UInt8) : (rs.encode msg msgLength encoded).1.config = rs.config := by
  simp only [encode]
  split
  · rfl
  · simp only [config, mod_order]

theorem config_findErrorLocator (rs : ReedSolomon) (n : Nat) :
    (rs.findErrorLocator n).1.config = rs.config := rfl

theorem config_evaluators (rs : ReedSolomon) : rs.evaluators.config = rs.config := rfl

theorem config_findErrorValues (rs : ReedSolomon) : rs.findErrorValues.config = rs.config := rfl

theorem config_decodeErrors (rs : ReedSolomon) (encodedLength msgLength : Nat)
    (msg : Nat → UInt8) (at_ : Nat) :
    (rs.decodeErrors encodedLength msgLength msg at_).1.config = rs.config := by
  simp only [decodeErrors]
  split
  · rfl
  · exact config_findErrorValues _

theorem config_decode (rs : ReedSolomon) (encoded : Nat → UInt8) {encodedLength : Nat}
    (hlen : encodedLength ≤ rs.blockLength) (msg : Nat → UInt8) (at_ : Nat) :
    (rs.decode encoded encodedLength msg at_).1.config = rs.prepared.config := by
  rw [decode, if_neg (Nat.not_lt.mpr hlen)]
  simp only
  rw [← prepared]
  split
  · rfl
  · rw [config_decodeErrors]
    rfl

theorem usable_encode (h : Usable rs) (msg : Nat → UInt8) (msgLength : Nat)
    (encoded : Nat → UInt8) : Usable (rs.encode msg msgLength encoded).1 :=
  usable_of_config (config_encode rs msg msgLength encoded) h

theorem usable_decode (h : Usable rs) (encoded : Nat → UInt8) (encodedLength : Nat)
    (msg : Nat → UInt8) (at_ : Nat) : Usable (rs.decode encoded encodedLength msg at_).1 := by
  by_cases hlen : encodedLength ≤ rs.blockLength
  · refine usable_of_built ?_
    rw [config_decode rs encoded hlen]
    exact built_prepared h
  · rw [decode, if_pos (Nat.lt_of_not_le hlen)]
    exact h

theorem Reachable.usable (h : Reachable rs) : Usable rs := by
  induction h with
  | create raw => exact usable_create raw
  | encode _ msg msgLength encoded ih => exact usable_encode ih msg msgLength encoded
  | decode _ encoded encodedLength msg at_ ih =>
    exact usable_decode ih encoded encodedLength msg at_

end ReedSolomon

end RyFi.Rs
