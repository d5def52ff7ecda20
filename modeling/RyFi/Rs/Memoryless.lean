import RyFi.Rs.Codewords

/-! # Two decoders on one block

An instance that is reused carries the scratch buffers of earlier calls.  `Agrees` relates
the searches of two instances for the locator: the buffers are the same up to index 32.  What
the later steps compute is determined by the locator as a polynomial, so that two usable
instances return the same (`decode_same`).
-/

namespace RyFi.Rs

open CLoop Polynomial PolynomialT KeyEquation

namespace ReedSolomon

/-! ## The search -/

namespace LocatorSearch

variable {syndromes syndromes' : Nat → UInt8} {n : Nat} {s s' : LocatorSearch} {d : UInt8}

/-- Two searches that differ beyond the buffers only. -/
structure Agrees (s s' : LocatorSearch) : Prop where
  numerrors : s'.numerrors = s.numerrors
  delayLength : s'.delayLength = s.delayLength
  lastDiscrepancy : s'.lastDiscrepancy = s.lastDiscrepancy
  order : s'.errorLocator.order = s.errorLocator.order
  lastOrder : s'.lastErrorLocator.order = s.lastErrorLocator.order
  locator : ∀ k, k ≤ 32 → s'.errorLocator.coeff k = s.errorLocator.coeff k
  last : ∀ k, k ≤ 32 → s'.lastErrorLocator.coeff k = s.lastErrorLocator.coeff k

theorem Agrees.discrepancy_eq (h : Agrees s s') (hs : Tracks syndromes n s) (hn : n < 32)
    (hsyndromes : ∀ i, i < 32 → syndromes' i = syndromes i) :
    s'.discrepancy ccsdsField syndromes' n = s.discrepancy ccsdsField syndromes n := by
  have hle := hs.numerrors_le
  rw [discrepancy, discrepancy, h.numerrors, hsyndromes n hn]
  refine forLoop_congr fun j e _ hj => ?_
  rw [h.locator j (by omega), hsyndromes (n - j) (by omega)]

theorem Agrees.scaledLast_eq (h : Agrees s s') {k : Nat} (hk : k ≤ 32) :
    s'.scaledLast ccsdsField d s'.lastErrorLocator.coeff k =
      s.scaledLast ccsdsField d s.lastErrorLocator.coeff k := by
  rw [scaledLast, scaledLast, h.last k hk, h.lastDiscrepancy]

/-- The last locator after it was shifted up and cleared below. -/
theorem Agrees.moved_eq (h : Agrees s s') (hpos : 0 < s.delayLength) {k : Nat} (hk : k ≤ 32) :
    forDown s'.delayLength (fun j last => Function.update last j 0)
        (forDown (s'.lastErrorLocator.order + 1) (fun j last => Function.update last
          (j + s'.delayLength) (s'.scaledLast ccsdsField d last j)) s'.lastErrorLocator.coeff) k =
      forDown s.delayLength (fun j last => Function.update last j 0)
        (forDown (s.lastErrorLocator.order + 1) (fun j last => Function.update last
          (j + s.delayLength) (s.scaledLast ccsdsField d last j)) s.lastErrorLocator.coeff) k := by
  rw [cleared_apply, cleared_apply, shifted_apply s hpos,
    shifted_apply s' (by rw [h.delayLength]; exact hpos), h.delayLength, h.lastOrder,
    h.scaledLast_eq (show k - s.delayLength ≤ 32 by omega), h.last k hk]

theorem Agrees.lengthen (h : Agrees s s') (hpos : 0 < s.delayLength) (d : UInt8) (i : Nat) :
    Agrees (s.lengthen ccsdsField d i) (s'.lengthen ccsdsField d i) where
  numerrors := congrArg (i + 1 - ·) h.numerrors
  delayLength := rfl
  lastDiscrepancy := rfl
  order := by
    simp only [LocatorSearch.lengthen]
    rw [h.lastOrder, h.delayLength]
  lastOrder := h.order
  locator := fun k hk => by
    simp only [LocatorSearch.lengthen, swapped_apply]
    rw [h.moved_eq hpos hk, h.locator k hk, h.lastOrder, h.delayLength]
  last := fun k hk => by
    simp only [LocatorSearch.lengthen, swapped_apply]
    rw [h.moved_eq hpos hk, h.locator k hk, h.lastOrder, h.delayLength]

theorem Agrees.adjust (h : Agrees s s') (d : UInt8) :
    Agrees (s.adjust ccsdsField d) (s'.adjust ccsdsField d) where
  numerrors := h.numerrors
  delayLength := congrArg (· + 1) h.delayLength
  lastDiscrepancy := h.lastDiscrepancy
  order := by
    simp only [LocatorSearch.adjust]
    rw [h.lastOrder, h.delayLength, h.order]
  lastOrder := h.lastOrder
  locator := fun k hk => by
    rw [adjusted_apply, adjusted_apply, h.delayLength, h.lastOrder,
      h.scaledLast_eq (show k - s.delayLength ≤ 32 by omega), h.locator k hk]
  last := h.last

theorem Agrees.step (h : Agrees s s') (hs : Tracks syndromes n s) (hn : n < 32)
    (hsyndromes : ∀ i, i < 32 → syndromes' i = syndromes i) :
    Agrees (s.step ccsdsField syndromes n) (s'.step ccsdsField syndromes' n) := by
  simp only [LocatorSearch.step]
  rw [h.discrepancy_eq hs hn hsyndromes, h.numerrors]
  split
  next =>
    exact ⟨rfl, congrArg (· + 1) h.delayLength, h.lastDiscrepancy, h.order, h.lastOrder,
      h.locator, h.last⟩
  next =>
    split
    next => exact h.lengthen hs.search.delay_pos _ n
    next => exact h.adjust _

theorem agrees_start {rs rs' : ReedSolomon} (hmin : rs.minDistance = 32)
    (hmin' : rs'.minDistance = 32) : Agrees rs.locatorStart rs'.locatorStart where
  numerrors := rfl
  delayLength := rfl
  lastDiscrepancy := rfl
  order := rfl
  lastOrder := rfl
  locator := fun k hk => by rw [locatorStart_locator hmin' hk, locatorStart_locator hmin hk]
  last := fun k hk => by rw [locatorStart_last hmin' hk, locatorStart_last hmin hk]

/-- The searches of two instances for the same syndromes. -/
theorem agrees_search {rs rs' : ReedSolomon} (hmin : rs.minDistance = 32)
    (hmin' : rs'.minDistance = 32) (hsyndromes : ∀ i, i < 32 → syndromes' i = syndromes i) :
    Agrees (forLoop 0 32 (LocatorSearch.step ccsdsField syndromes) rs.locatorStart)
      (forLoop 0 32 (LocatorSearch.step ccsdsField syndromes') rs'.locatorStart) := by
  refine (forLoop_rel (fun i s s' => Tracks syndromes i s ∧ Agrees s s') (Nat.zero_le 32)
    ⟨tracks_start hmin, agrees_start hmin hmin'⟩ ?_).2
  rintro i s s' - hi ⟨hs, h⟩
  exact ⟨tracks_step hs hi, h.step hs hi hsyndromes⟩

end LocatorSearch

/-! ## Lists of roots -/

/-- What is listed determines the list. -/
theorem Lists.unique {Z : Nat → Prop} {n count count' : Nat} {roots roots' : Nat → UInt8}
    (h : Lists Z n count roots) (h' : Lists Z n count' roots') :
    count' = count ∧ ∀ k, k < count → roots' k = roots k := by
  classical
  -- both enumerate the same finite set in increasing order
  set listed := (Finset.range n).filter Z
  have henum : ∀ {count : Nat} {roots : Nat → UInt8}, Lists Z n count roots →
      (∀ k : Fin count, (roots k).toNat ∈ listed) ∧
        StrictMono (fun k : Fin count => (roots k).toNat) ∧ listed.card = count := by
    intro count roots h
    have hmem : ∀ k : Fin count, (roots k).toNat ∈ listed := fun k =>
      Finset.mem_filter.mpr ⟨Finset.mem_range.mpr (h.below k k.isLt), h.sound k k.isLt⟩
    have hmono : StrictMono (fun k : Fin count => (roots k).toNat) := fun k l hkl =>
      h.increasing k l hkl l.isLt
    refine ⟨hmem, hmono, ?_⟩
    have himage : Finset.univ.image (fun k : Fin count => (roots k).toNat) = listed := by
      refine Finset.Subset.antisymm (Finset.image_subset_iff.mpr fun k _ => hmem k) fun j hj => ?_
      obtain ⟨hlt, hz⟩ := Finset.mem_filter.mp hj
      obtain ⟨k, hk, heq⟩ := h.complete j (Finset.mem_range.mp hlt) hz
      exact Finset.mem_image.mpr ⟨⟨k, hk⟩, Finset.mem_univ _, heq⟩
    rw [← himage, Finset.card_image_of_injective _ hmono.injective, Finset.card_univ,
      Fintype.card_fin]
  obtain ⟨hmem, hmono, hcard⟩ := henum h
  obtain ⟨hmem', hmono', hcard'⟩ := henum h'
  obtain rfl : count' = count := hcard'.symm.trans hcard
  refine ⟨rfl, fun k hk => UInt8.toNat_inj.mp ?_⟩
  have hsame := (Finset.orderEmbOfFin_unique hcard hmem' hmono').trans
    (Finset.orderEmbOfFin_unique hcard hmem hmono).symm
  exact congrFun hsame ⟨k, hk⟩

/-! ## The rest of the call -/

variable {rs rs' : ReedSolomon} {S : Gf[X]}

/-- Two instances that look for the same errors in the same word. -/
structure SameErrors (rs rs' : ReedSolomon) : Prop where
  order : rs'.errorLocator.order = rs.errorLocator.order
  toPoly : rs'.errorLocator.toPoly = rs.errorLocator.toPoly
  received : ∀ j, j < 255 →
    rs'.receivedPolynomial.coeff j = rs.receivedPolynomial.coeff j

theorem SameErrors.roots (h : SameErrors rs rs') (hs : Searched rs S) (hs' : Searched rs' S) :
    rs'.ownRoots.1 = rs.ownRoots.1 ∧
      (rs.ownRoots.1 = true → ∀ k, k < rs.errorLocator.order →
        rs'.ownRoots.2 k = rs.ownRoots.2 k) := by
  obtain ⟨count, hlist, hfound⟩ := lists_ownRoots hs
  obtain ⟨count', hlist', hfound'⟩ := lists_ownRoots hs'
  rw [h.toPoly] at hlist'
  rw [h.order] at hfound'
  obtain ⟨rfl, hroots⟩ := hlist.unique hlist'
  refine ⟨Bool.eq_iff_iff.mpr (hfound'.trans hfound.symm), fun htrue k hk => hroots k ?_⟩
  rw [hfound.mp htrue]
  exact hk

theorem SameErrors.correction (h : SameErrors rs rs') (hs : Searched rs S)
    (hs' : Searched rs' S) (hfound : rs.ownRoots.1 = true) :
    rs'.correction = rs.correction := by
  obtain ⟨hsame, hroots⟩ := h.roots hs hs'
  have hf := factored_of_found hs hfound
  have hf' := factored_of_found hs' (hsame.trans hfound)
  rw [ReedSolomon.correction, ReedSolomon.correction, h.order]
  refine Finset.sum_congr rfl fun k hk => ?_
  have hlt := Finset.mem_range.mp hk
  have hlt' : k < rs'.errorLocator.order := by rw [h.order]; exact hlt
  obtain ⟨hbelow, hlocation⟩ := location_spec hs hf hlt
  obtain ⟨hbelow', hlocation'⟩ := location_spec hs' hf' hlt'
  have hplace : rs'.location k = rs.location k := by
    rw [hroots hfound k hlt, ← hlocation] at hlocation'
    have hmod := α_pow_inj.mp hlocation'
    omega
  rw [hplace, el_value hs hf hlt, el_value hs' hf' hlt', hroots hfound k hlt, h.toPoly]

theorem SameErrors.corrected (h : SameErrors rs rs') (hs : Searched rs S)
    (hs' : Searched rs' S) (hfound : rs.ownRoots.1 = true) {j : Nat} (hj : j < 255) :
    rs'.corrected.receivedPolynomial.coeff j = rs.corrected.receivedPolynomial.coeff j := by
  refine el_injective ?_
  rw [el_corrected, el_corrected, h.received j hj, h.correction hs hs' hfound]

theorem receive_congr {block block' : Nat → UInt8} {n : Nat}
    (h : ∀ j, j < n → block' j = block j) : rs.receive block' n = rs.receive block n := by
  have hcoeff : forLoop 0 n (fun i coeff => Function.update coeff i (block' (n - (i + 1))))
      rs.receivedPolynomial.coeff =
      forLoop 0 n (fun i coeff => Function.update coeff i (block (n - (i + 1))))
        rs.receivedPolynomial.coeff :=
    forLoop_congr fun i coeff _ hi => by rw [h (n - (i + 1)) (by omega)]
  simp only [receive, hcoeff]

/-- A call reads the bytes of its block only. -/
theorem decode_congr {block block' : Nat → UInt8} {n : Nat}
    (h : ∀ j, j < n → block' j = block j) (msg : Nat → UInt8) (at_ : Nat) :
    rs.decode block' n msg at_ = rs.decode block n msg at_ := by
  simp only [decode, receive_congr h]

theorem sameErrors_located (h : Usable rs) (h' : Usable rs') (block : Nat → UInt8) :
    SameErrors (rs.located block 255) (rs'.located block 255) := by
  have hsyndromes : ∀ i, i < 32 → (rs'.afterSyndromes block 255).syndromes i =
      (rs.afterSyndromes block 255).syndromes i := fun i hi =>
    el_injective ((el_syndromes h' block hi).trans (el_syndromes h block hi).symm)
  have hagrees := LocatorSearch.agrees_search (built_afterSyndromes h block 255).minDistance
    (built_afterSyndromes h' block 255).minDistance hsyndromes
  have horder := hagrees.order
  have hlocator := hagrees.locator
  rw [← located_eq h, ← located_eq h'] at horder hlocator
  have hle := located_order_le h block
  refine ⟨horder, ?_, fun j hj => ?_⟩
  · rw [PolynomialT.toPoly, PolynomialT.toPoly, horder]
    exact poly_congr fun k hk => hlocator k (by omega)
  · exact (receive_coeff _ block hj (built_prepared h').blockLength).trans
      (receive_coeff _ block hj (built_prepared h).blockLength).symm

theorem allZero_same (h : Usable rs) (h' : Usable rs') (block : Nat → UInt8) :
    rs'.allZero block 255 = rs.allZero block 255 :=
  Bool.eq_iff_iff.mpr ((allZero_iff h' block).trans (allZero_iff h block).symm)

/-- Two usable instances decode a block to the same, whatever their buffers hold. -/
theorem decode_same (h : Usable rs) (h' : Usable rs') {block block' : Nat → UInt8}
    (hblock : ∀ j, j < 255 → block' j = block j)
    (hcovered : rs.allZero block 255 = false → (rs.located block 255).errorLocator.order ≤ 31)
    (msg msg' : Nat → UInt8) (at_ : Nat) :
    (rs'.decode block' 255 msg' at_).2.1 = (rs.decode block 255 msg at_).2.1 ∧
      ((rs.decode block 255 msg at_).2.1 ≠ none → ∀ j, j < 223 →
        (rs'.decode block' 255 msg' at_).2.2 (at_ + j) =
          (rs.decode block 255 msg at_).2.2 (at_ + j)) := by
  rw [decode_congr hblock]
  have herrors := sameErrors_located h h' block
  have hzero := allZero_same h h' block
  have hlen : 255 ≤ rs.blockLength := Nat.le_of_eq h.1.blockLength_eq.symm
  have hlen' : 255 ≤ rs'.blockLength := Nat.le_of_eq h'.1.blockLength_eq.symm
  have hmin : rs.minDistance = 32 := h.1.minDistance_eq
  have hmin' : rs'.minDistance = 32 := h'.1.minDistance_eq
  -- the same result, and the same word in `received_polynomial`
  have hsame : (rs'.decode block 255 msg' at_).2.1 = (rs.decode block 255 msg at_).2.1 ∧
      ((rs.decode block 255 msg at_).2.1 ≠ none → ∀ j, j < 255 →
        (rs'.decode block 255 msg' at_).1.receivedPolynomial.coeff j =
          (rs.decode block 255 msg at_).1.receivedPolynomial.coeff j) := by
    rw [decode_eq rs block msg at_ hlen, decode_eq rs' block msg' at_ hlen', hzero, hmin, hmin']
    cases hall : rs.allZero block 255 with
    | true =>
      rw [if_pos rfl, if_pos rfl]
      exact ⟨rfl, fun _ => herrors.received⟩
    | false =>
      have hs := searched_located h hall (hcovered hall)
      have hs' := searched_located h' (hzero.trans hall) (by
        rw [herrors.order]
        exact hcovered hall)
      rw [if_neg Bool.false_ne_true, if_neg Bool.false_ne_true, decodeErrors_eq,
        decodeErrors_eq, (herrors.roots hs hs').1]
      cases hfound : (rs.located block 255).ownRoots.1 with
      | true =>
        rw [if_pos rfl, if_pos rfl]
        exact ⟨rfl, fun _ j hj => herrors.corrected hs hs' hfound hj⟩
      | false =>
        rw [if_neg Bool.false_ne_true, if_neg Bool.false_ne_true]
        exact ⟨rfl, fun hsome => absurd rfl hsome⟩
  refine ⟨hsame.1, fun hsome j hj => ?_⟩
  rw [decode_message h block msg at_ hsome hj,
    decode_message h' block msg' at_ (by rw [hsame.1]; exact hsome) hj]
  exact hsame.2 hsome (254 - j) (by omega)

end ReedSolomon

end RyFi.Rs
