import RyFi.Rs.BerlekampMassey
import RyFi.Rs.Instance

/-! # The steps of a decode call

One lemma for each step of `correct_reed_solomon_decode`, on an instance that is set up
(`Built`), whatever its buffers hold from earlier calls: the syndromes, the locator, the
roots, the locations, the values and the corrections.
-/

namespace RyFi.Rs

open CLoop Polynomial PolynomialT KeyEquation

/-- A block as a polynomial: byte `i` belongs to the power `254 - i`. -/
noncomputable def received (block : Nat → UInt8) : Gf[X] := poly 255 fun i => block (254 - i)

noncomputable def syndrome (block : Nat → UInt8) (i : Nat) : Gf :=
  (received block).eval (α ^ (i + 1))

/-- The polynomial of the syndromes. -/
noncomputable def syndromePoly (block : Nat → UInt8) : Gf[X] :=
  ∑ i ∈ Finset.range 32, monomial i (syndrome block i)

theorem coeff_syndromePoly (block : Nat → UInt8) {i : Nat} (hi : i < 32) :
    (syndromePoly block).coeff i = syndrome block i := by
  rw [syndromePoly, finsetSum_coeff]
  simp only [coeff_monomial, Finset.sum_ite_eq', Finset.mem_range, if_pos hi]

namespace ReedSolomon

variable {rs : ReedSolomon} {block : Nat → UInt8}

/-! ## Syndromes -/

theorem findSyndromes_snd (f : FieldT) (p : PolynomialT) (exps : Nat → Nat → UInt8)
    (syndromes : Nat → UInt8) {n i : Nat} (hi : i < n) :
    (findSyndromes f p exps syndromes n).2 i = evalLut f p (exps i) := by
  have hloop := @forLoop_induct _ 0 n (fun i (s : Bool × (Nat → UInt8)) =>
      (if evalLut f p (exps i) ≠ 0 then false else s.1,
        Function.update s.2 i (evalLut f p (exps i)))) (true, setRange syndromes 0 0 n)
    (fun k s => ∀ i, i < k → s.2 i = evalLut f p (exps i)) (Nat.zero_le n)
    (fun i hi => absurd hi (Nat.not_lt_zero i)) ?_
  · exact hloop i hi
  · intro k s _ _ hs i hi
    simp only [Function.update_apply]
    split
    next heq => rw [heq]
    next hne => exact hs i (by omega)

theorem findSyndromes_fst (f : FieldT) (p : PolynomialT) (exps : Nat → Nat → UInt8)
    (syndromes : Nat → UInt8) (n : Nat) :
    (findSyndromes f p exps syndromes n).1 = true ↔ ∀ i, i < n → evalLut f p (exps i) = 0 := by
  refine forLoop_induct (fun k (s : Bool × (Nat → UInt8)) =>
    s.1 = true ↔ ∀ i, i < k → evalLut f p (exps i) = 0) (Nat.zero_le n)
    (by simp) fun k s _ _ hs => ?_
  simp only [ne_eq, ite_not]
  by_cases hzero : evalLut f p (exps k) = 0
  · rw [if_pos hzero, hs]
    refine ⟨fun h i hi => ?_, fun h i hi => h i (by omega)⟩
    rcases Nat.lt_succ_iff_lt_or_eq.mp hi with hlt | rfl
    · exact h i hlt
    · exact hzero
  · rw [if_neg hzero]
    exact ⟨fun h => absurd h Bool.false_ne_true, fun h => absurd (h k (Nat.lt_succ_self k)) hzero⟩

/-- The syndromes of what is received, and whether all are zero. -/
def ownSyndromes (rs : ReedSolomon) : Bool × (Nat → UInt8) :=
  findSyndromes rs.field rs.receivedPolynomial rs.generatorRootExp rs.syndromes rs.minDistance

/-- The instance when the syndromes of a block of `n` bytes are known. -/
def afterSyndromes (rs : ReedSolomon) (block : Nat → UInt8) (n : Nat) : ReedSolomon :=
  { rs.prepared.receive block n with
    syndromes := (rs.prepared.receive block n).ownSyndromes.2 }

/-- Whether the call returns without looking for errors. -/
def allZero (rs : ReedSolomon) (block : Nat → UInt8) (n : Nat) : Bool :=
  (rs.prepared.receive block n).ownSyndromes.1

/-- The instance when the locator is known. -/
def located (rs : ReedSolomon) (block : Nat → UInt8) (n : Nat) : ReedSolomon :=
  ((rs.afterSyndromes block n).findErrorLocator 0).1

theorem decode_eq (rs : ReedSolomon) (block msg : Nat → UInt8) (at_ : Nat) {n : Nat}
    (hn : n ≤ rs.blockLength) :
    rs.decode block n msg at_ =
      if rs.allZero block n then
        (rs.afterSyndromes block n, some (n - rs.minDistance),
          (rs.afterSyndromes block n).writeMessage n (n - rs.minDistance) msg at_)
      else (rs.located block n).decodeErrors n (n - rs.minDistance) msg at_ := by
  rw [decode, if_neg (Nat.not_lt.mpr hn)]
  rfl

theorem config_receive (rs : ReedSolomon) (block : Nat → UInt8) (n : Nat) :
    (rs.receive block n).config = rs.config := rfl

theorem config_afterSyndromes (rs : ReedSolomon) (block : Nat → UInt8) (n : Nat) :
    (rs.afterSyndromes block n).config = rs.prepared.config := rfl

theorem config_located (rs : ReedSolomon) (block : Nat → UInt8) (n : Nat) :
    (rs.located block n).config = rs.prepared.config := by
  rw [located, config_findErrorLocator, config_afterSyndromes]

theorem built_receive (h : Usable rs) (block : Nat → UInt8) (n : Nat) :
    Built (rs.prepared.receive block n).config := by
  rw [config_receive]
  exact built_prepared h

theorem built_afterSyndromes (h : Usable rs) (block : Nat → UInt8) (n : Nat) :
    Built (rs.afterSyndromes block n).config := by
  rw [config_afterSyndromes]
  exact built_prepared h

theorem built_located (h : Usable rs) (block : Nat → UInt8) (n : Nat) :
    Built (rs.located block n).config := by
  rw [config_located]
  exact built_prepared h

theorem receive_coeff (rs : ReedSolomon) (block : Nat → UInt8) {n i : Nat} (hi : i < n)
    (hn : rs.blockLength = n) :
    (rs.receive block n).receivedPolynomial.coeff i = block (n - (i + 1)) := by
  simp only [receive, hn, Nat.sub_self, forLoop_self]
  rw [forLoop_update, if_pos ⟨Nat.zero_le i, hi⟩]

theorem toPoly_received (h : Usable rs) (block : Nat → UInt8) :
    (rs.prepared.receive block 255).receivedPolynomial.toPoly = received block := by
  rw [toPoly, (built_receive h block 255).receivedOrder, received]
  refine poly_congr fun i hi => ?_
  rw [receive_coeff _ _ hi (built_prepared h).blockLength]
  congr 1
  omega

theorem el_evalSyndrome (h : Usable rs) (block : Nat → UInt8) {i : Nat} (hi : i < 32) :
    el (evalLut (rs.prepared.receive block 255).field
      (rs.prepared.receive block 255).receivedPolynomial
      ((rs.prepared.receive block 255).generatorRootExp i)) = syndrome block i := by
  have hbuilt := built_receive h block 255
  rw [hbuilt.field, syndrome, ← toPoly_received h]
  refine el_evalLut ?_
  rw [hbuilt.receivedOrder]
  exact hbuilt.rootRow hi

theorem el_syndromes (h : Usable rs) (block : Nat → UInt8) {i : Nat} (hi : i < 32) :
    el ((rs.afterSyndromes block 255).syndromes i) = syndrome block i := by
  have hmin := (built_receive h block 255).minDistance
  rw [← el_evalSyndrome h block hi]
  simp only [afterSyndromes, ownSyndromes]
  rw [findSyndromes_snd _ _ _ _ (hmin.symm ▸ hi)]

theorem allZero_iff (h : Usable rs) (block : Nat → UInt8) :
    rs.allZero block 255 = true ↔ ∀ i, i < 32 → syndrome block i = 0 := by
  have hmin := (built_receive h block 255).minDistance
  rw [allZero, ownSyndromes, findSyndromes_fst, hmin]
  refine forall₂_congr fun i hi => ?_
  rw [← el_evalSyndrome h block hi, el_eq_zero_iff]

theorem poly_syndromes (h : Usable rs) (block : Nat → UInt8) :
    poly 32 (rs.afterSyndromes block 255).syndromes = syndromePoly block := by
  refine Finset.sum_congr rfl fun i hi => ?_
  rw [el_syndromes h block (Finset.mem_range.mp hi)]

/-! ## The locator -/

/-- What the search leaves in the instance. -/
theorem located_eq (h : Usable rs) (block : Nat → UInt8) :
    (rs.located block 255).errorLocator =
      (forLoop 0 32 (LocatorSearch.step ccsdsField (rs.afterSyndromes block 255).syndromes)
        (rs.afterSyndromes block 255).locatorStart).errorLocator := by
  have hmin := (built_afterSyndromes h block 255).minDistance
  have hfield := (built_afterSyndromes h block 255).field
  rw [located, findErrorLocator, hmin, hfield]

theorem tracks_located (h : Usable rs) (block : Nat → UInt8) :
    ∃ s, LocatorSearch.Tracks (rs.afterSyndromes block 255).syndromes 32 s ∧
      (rs.located block 255).errorLocator = s.errorLocator :=
  ⟨_, LocatorSearch.tracks_search (built_afterSyndromes h block 255).minDistance (Nat.le_refl 32),
    located_eq h block⟩

theorem located_order_le (h : Usable rs) (block : Nat → UInt8) :
    (rs.located block 255).errorLocator.order ≤ 32 := by
  obtain ⟨s, hs, heq⟩ := tracks_located h block
  rw [heq, hs.order_eq]
  exact hs.numerrors_le

/-- The locator is as short as a register for the syndromes can be. -/
theorem located_order_le_of_register (h : Usable rs) (block : Nat → UInt8) {D : Gf[X]} {v : Nat}
    (hD : Register (syndromePoly block) D v 32) :
    (rs.located block 255).errorLocator.order ≤ v := by
  have hmin := (built_afterSyndromes h block 255).minDistance
  rw [← poly_syndromes h] at hD
  have htracks := @LocatorSearch.tracks_search (rs.afterSyndromes block 255).syndromes 32 _ hmin
    (Nat.le_refl 32)
  have hle := LocatorSearch.numerrors_search_le hmin hD (Nat.le_refl 32)
  rw [located_eq h, htracks.order_eq]
  exact hle

theorem located_coeff_zero (h : Usable rs) (block : Nat → UInt8) :
    (rs.located block 255).errorLocator.coeff 0 = 1 := by
  obtain ⟨s, hs, heq⟩ := tracks_located h block
  rw [heq, hs.locator_zero]

/-- The locator generates the syndromes. -/
theorem register_located (h : Usable rs) (block : Nat → UInt8) :
    Register (syndromePoly block) (rs.located block 255).errorLocator.toPoly
      (rs.located block 255).errorLocator.order 32 := by
  obtain ⟨s, hs, heq⟩ := tracks_located h block
  rw [heq, hs.order_eq, ← poly_syndromes h]
  exact hs.search.register

end ReedSolomon

end RyFi.Rs
